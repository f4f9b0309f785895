import LetArith.Proofs.Brackets
import LetArith.Proofs.Grammar.Recognition

/-! Parsers with an account of their moves: which groups they enter and leave, and where they give
up.  The account is kept beside the parsers; without it they are the parsers themselves. -/

namespace LetArith

/-- To go into the group that the token with this index opens; to go out of the innermost group;
to give up at the token with this index. -/
inductive Move where
  | enter (index : Nat) (opening : Token)
  | leave
  | blame (index : Nat)
  deriving DecidableEq

namespace Move

/-- Groups are opened where they are entered and closed where they are left. -/
def groups : Brackets Move where
  opens
    | enter _ _ => true
    | _ => false
  closes
    | leave => true
    | _ => false

def index? : Move → Option Nat
  | enter index _ => some index
  | leave => none
  | blame index => some index

/-- Where the moves give up, if that is how they end. -/
def blamed? (moves : List Move) : Option Nat :=
  moves.getLast?.bind fun
    | blame index => some index
    | _ => none

@[simp] theorem blamed?_append_blame (moves : List Move) (index : Nat) :
    blamed? (moves ++ [blame index]) = some index := by simp [blamed?]

end Move

/-- A parser, and the moves that it makes from each place. -/
structure Traced (α : Type) where
  parse : Parse α
  moves : Cursor → List Move

namespace Traced

variable {α β : Type}

def andThen (p : Traced α) (q : α → Traced β) : Traced β where
  parse := p.parse >>= fun a => (q a).parse
  moves c := p.moves c ++
    match p.parse c with
    | .ok (a, d) => (q a).moves d
    | .error _ => []

instance : Monad Traced where
  pure a := ⟨pure a, fun _ => []⟩
  bind := andThen

/-- A parser that reads a token at most, and if it fails gives up at that token. -/
def token (p : Parse α) : Traced α where
  parse := p
  moves c :=
    match p c with
    | .ok _ => []
    | .error _ => [.blame c.position]

def ofPlace (p : Cursor → Traced α) : Traced α := ⟨fun c => (p c).parse c, fun c => (p c).moves c⟩

theorem parse_ofPlace (p : Cursor → Traced α) (c : Cursor) :
    (ofPlace p).parse c = (p c).parse c := rfl
theorem parse_bind (p : Traced α) (q : α → Traced β) :
    (p >>= q).parse = p.parse >>= fun a => (q a).parse := rfl
theorem moves_bind_of_ok {p : Traced α} {q : α → Traced β} {c d : Cursor} {a : α}
    (h : p.parse c = .ok (a, d)) : (p >>= q).moves c = p.moves c ++ (q a).moves d := by
  show p.moves c ++ _ = _
  rw [h]
theorem moves_bind_of_error {p : Traced α} {q : α → Traced β} {c : Cursor} {f : Failure}
    (h : p.parse c = .error f) : (p >>= q).moves c = p.moves c := by
  show p.moves c ++ _ = _
  rw [h, List.append_nil]

/-- The inside of a group, up to the token that closes it. -/
def inside (inner : Traced Expr) : Traced Expr := do
  let e ← inner
  let _ ← token (Parse.expect .closeParen .groupNotClosed)
  pure e

/-- A group around `inner`, which is left where it ends well. -/
def group (inner : Traced Expr) : Traced Expr where
  parse := Expr.groupOf inner.parse
  moves c := .enter c.position c.peek :: ((inside inner).moves c.next ++
    match (inside inner).parse c.next with
    | .ok _ => [.leave]
    | .error _ => [])

section Chain

variable (operator? : Token → Option Operator) (operand : Traced Expr)

def chainFrom : Nat → Expr → Traced Expr
  | 0, left => pure left
  | bound + 1, left => ofPlace fun c =>
    match operator? c.peek with
    | none => pure left
    | some op => do
      let _ ← token Parse.advance
      let right ← operand
      chainFrom bound (.binary left op right)

def chain : Traced Expr := do
  let first ← operand
  ofPlace fun c => chainFrom operator? operand (c.remaining + 1) first

theorem parse_chainFrom (n : Nat) (left : Expr) :
    (chainFrom operator? operand n left).parse = Expr.chainFrom operator? operand.parse n left := by
  induction n generalizing left with
  | zero => rfl
  | succ n ih =>
    funext c
    rw [chainFrom, parse_ofPlace]
    cases ho : operator? c.peek with
    | none => exact (Expr.chainFrom_succ_of_none ho).symm
    | some op =>
      rw [Expr.chainFrom_succ_of_some ho]
      have hnext : ∀ right, (chainFrom operator? operand n (.binary left op right)).parse =
          Expr.chainFrom operator? operand.parse n (.binary left op right) := fun right => ih _
      simp only [← hnext]
      rfl

theorem parse_chain : (chain operator? operand).parse = Expr.chain operator? operand.parse := by
  rw [Expr.chain_eq]
  refine congrArg (operand.parse >>= ·) (funext fun left => funext fun c => ?_)
  exact congrFun (parse_chainFrom operator? operand (c.remaining + 1) left) c

end Chain

section Rules

variable (rules : Rules)

def operand (group : Traced Expr) : Traced Expr := ofPlace fun c =>
  match rules.operand? c.peek.kind with
  | some .name => token Expr.readIdentifier
  | some .number => token Expr.readNumber
  | some .group => group
  | none => token (Parse.fail (.unexpected c.peek .notAnOperand))

def additive (primary : Traced Expr) : Traced Expr :=
  chain (rules.matching.operator? .additive) (chain (rules.matching.operator? .multiplicative) primary)

def primary : Nat → Traced Expr
  | 0 => operand rules (token Expr.refusedGroup)
  | room + 1 => operand rules (group (additive rules (primary room)))

def expression (room : Nat) : Traced Expr := additive rules (primary rules room)

def initializer (room : Nat) (constant : Bool) (name : String) : Traced Declaration := do
  let _ ← token (Parse.expect .equals .equalsMissing)
  let e ← expression rules room
  let _ ← token (Parse.expect .semicolon .semicolonMissing)
  pure ⟨constant, name, some e⟩

def valueless (constant : Bool) (name : String) : Parse Declaration := do
  let t ← Parse.advance
  if constant then Parse.fail (.unexpected t .initializerMissing) else pure ⟨false, name, none⟩

def value (room : Nat) (constant : Bool) (name : String) : Traced Declaration := ofPlace fun c =>
  if c.peek.kind = .semicolon then token (valueless constant name)
  else initializer rules room constant name

def declaration (room : Nat) : Traced Declaration := do
  let keyword ← token Parse.advance
  let name ← token (Parse.expect .identifier .nameMissing)
  value rules room (keyword.kind == .constKeyword) name.text

def statement (room : Nat) : Traced Statement := ofPlace fun c =>
  if rules.declares c.peek.kind then do
    let d ← declaration rules room
    pure (.declaration d)
  else do
    let e ← expression rules room
    pure (.expression e)

theorem parse_operand (group : Traced Expr) :
    (operand rules group).parse = Expr.operand rules group.parse := by
  funext c
  rw [operand, parse_ofPlace, Expr.operand_apply]
  cases rules.operand? c.peek.kind with
  | none => rfl
  | some rule => cases rule <;> rfl

theorem parse_additive (primary : Traced Expr) :
    (additive rules primary).parse = Expr.additive rules primary.parse := by
  rw [additive, parse_chain, parse_chain]
  rfl

theorem parse_primary (room : Nat) : (primary rules room).parse = Expr.primary rules room := by
  induction room with
  | zero =>
    rw [primary, parse_operand]
    rfl
  | succ room ih =>
    rw [primary, parse_operand]
    show Expr.operand rules (Expr.groupOf (additive rules (primary rules room)).parse) = _
    rw [parse_additive, ih]
    rfl

theorem parse_expression (room : Nat) : (expression rules room).parse = Expr.read rules room := by
  rw [expression, parse_additive, parse_primary]
  rfl

theorem parse_value (room : Nat) (constant : Bool) (name : String) :
    (value rules room constant name).parse = Declaration.readValue rules room constant name := by
  funext c
  rw [value, parse_ofPlace]
  by_cases hk : c.peek.kind = .semicolon
  · rw [if_pos hk, Declaration.readValue_apply, if_pos hk]
    cases constant <;> rfl
  · have hexpression : (initializer rules room constant name).parse =
        Declaration.readInitializer rules room constant name := by
      show Parse.expect .equals .equalsMissing >>= (fun _ =>
        (expression rules room).parse >>= _) = _
      rw [parse_expression]
      rfl
    rw [if_neg hk, Declaration.readValue_apply, if_neg hk, hexpression]

theorem parse_declaration (room : Nat) :
    (declaration rules room).parse = Declaration.read rules room := by
  have hvalue : ∀ keyword name : Token,
      (value rules room (keyword.kind == .constKeyword) name.text).parse =
        Declaration.readValue rules room (keyword.kind == .constKeyword) name.text :=
    fun _ _ => parse_value rules room _ _
  unfold Declaration.read
  simp only [← hvalue]
  rfl

theorem parse_statement (room : Nat) : (statement rules room).parse = Statement.read rules room := by
  funext c
  rw [statement, parse_ofPlace, Statement.read_apply, ← parse_declaration, ← parse_expression]
  by_cases hk : rules.declares c.peek.kind = true
  · rw [if_pos hk, if_pos hk]
    rfl
  · rw [if_neg hk, if_neg hk]
    rfl

/-- Statements up to the end of the input or to the first failure, as many as the bound at most. -/
def statements (room : Nat) : Nat → Traced (List Statement)
  | 0 => pure []
  | bound + 1 => ofPlace fun c =>
    if c.atEnd then pure []
    else do
      let s ← statement rules room
      let ss ← statements room bound
      pure (s :: ss)

theorem readAll_eq (room n : Nat) (c : Cursor) :
    (Statement.readAll rules room n c).2 = ((statements rules room n).parse c).map Prod.fst := by
  induction n generalizing c with
  | zero => rfl
  | succ n ih =>
    rw [Statement.readAll, statements, parse_ofPlace]
    by_cases hend : c.atEnd = true
    · rw [if_pos hend, if_pos hend]
      rfl
    · rw [if_neg hend, if_neg hend, parse_bind, parse_statement]
      cases hs : Statement.read rules room c with
      | error f =>
        rw [Parse.bind_of_error hs]
        rfl
      | ok r =>
        obtain ⟨s, d⟩ := r
        rw [Parse.bind_of_ok hs, parse_bind]
        dsimp only
        rw [ih d]
        cases hss : (statements rules room n).parse d with
        | error f =>
          rw [Parse.bind_of_error hss]
          rfl
        | ok r =>
          obtain ⟨ss, e⟩ := r
          rw [Parse.bind_of_ok hss]
          rfl

end Rules

end Traced

namespace Program

def traced (config : Config) (ts : List Token) : Traced (List Statement) :=
  Traced.statements (Rules.standard config.matching) config.maxDepth (Cursor.ofTokens ts).remaining

/-- The moves made to read a program from these tokens. -/
def moves (config : Config) (ts : List Token) : List Move :=
  (traced config ts).moves (Cursor.ofTokens ts)

theorem ofTokens_eq_traced (config : Config) (ts : List Token) :
    ofTokens config ts =
      match (traced config ts).parse (Cursor.ofTokens ts) with
      | .ok (body, _) => .ok ⟨body⟩
      | .error f => .error f.diagnostic := by
  rw [ofTokens_eq, Statement.all, Traced.readAll_eq, traced]
  cases (Traced.statements (Rules.standard config.matching) config.maxDepth
    (Cursor.ofTokens ts).remaining).parse (Cursor.ofTokens ts) <;> rfl

end Program

end LetArith
