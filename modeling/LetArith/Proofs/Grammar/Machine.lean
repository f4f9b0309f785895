import LetArith.Proofs.Grammar.Termination
import Mathlib.Computability.StateTransition

/-! The parser as a machine.  It takes one small step after the other and keeps on a stack what is
still to be done with what it reads, a group until the token that closes it among them; the groups
that are open are counted by the parser itself, where it enters and leaves them.  A run of the
machine comes to the end that the parser comes to. -/

namespace LetArith

open StateTransition

/-- What is to be done with an expression or a statement once it has been read: to go on with a chain
behind its first operand or behind another one, to close the group around it, to end the declaration
whose value it is, to make a statement of it, or to go on with the program behind the statements
`done` and this one. -/
inductive Frame where
  | first (tier : Tier)
  | second (tier : Tier) (left : Expr) (op : Operator)
  | group
  | value (constant : Bool) (name : String)
  | bare
  | body (done : List Statement)

namespace Frame

def isGroup : Frame → Bool
  | group => true
  | _ => false

end Frame

/-- What a machine is about to do. -/
inductive Control where
  | task (t : Parser.Task)
  | give (e : Expr)
  | statement
  | declaring (constant : Bool)
  | named (constant : Bool) (name : String)
  | complete (s : Statement)
  | program (done : List Statement)
  | finished (done : List Statement)
  | failed (d : Diagnostic)

structure Machine where
  control : Control
  parser : Parser
  frames : List Frame

namespace Machine

variable {α β : Type}

/-- Go on with what a success gives; a failure is the end. -/
def after (give : α → Control) (frames : List Frame) : Except Diagnostic α × Parser → Machine
  | (.ok a, p) => ⟨give a, p, frames⟩
  | (.error d, p) => ⟨.failed d, p, frames⟩

/-- Enter the group that the token at hand opens.  It stays among the open ones if it is refused. -/
def enter (p : Parser) (frames : List Frame) : Machine :=
  after (fun _ => .task (.read .additive)) (.group :: frames)
    ((p.moved p.cursor.next).enterGroup p.cursor.peek)

def operand (p : Parser) (frames : List Frame) : Option OperandRule → Machine
  | some .name => after .give frames (p.run fun _ _ => Expr.readIdentifier)
  | some .number => after .give frames (p.run fun _ _ => Expr.readNumber)
  | some .group => enter p frames
  | none => ⟨.failed (.unexpected p.cursor.peek .notAnOperand), p, frames⟩

def read (p : Parser) (frames : List Frame) : Tier → Machine
  | .primary => operand p frames (p.rules.operand? p.cursor.peek.kind)
  | tier => ⟨.task (.read tier.tighter), p, .first tier :: frames⟩

/-- Go on behind the operands `left` of a chain, if an operator of its tier follows. -/
def goOn (p : Parser) (frames : List Frame) (tier : Tier) (left : Expr) : Machine :=
  match p.operator? tier with
  | none => ⟨.give left, p, frames⟩
  | some op =>
    ⟨.task (.read tier.tighter), p.moved p.cursor.next, .second tier left op :: frames⟩

/-- Leave a group behind the token that closes it.  Without one it stays open. -/
def close (p : Parser) (frames : List Frame) (e : Expr) : Machine :=
  match p.cursor.expect .closeParen .groupNotClosed with
  | .ok (_, c) => ⟨.give e, (p.moved c).exitGroup, frames⟩
  | .error d => ⟨.failed d, p, .group :: frames⟩

def take (p : Parser) (frames : List Frame) (e : Expr) : Frame → Option Machine
  | .first tier => some ⟨.task (.goOn tier e), p, frames⟩
  | .second tier left op => some ⟨.task (.goOn tier (.binary left op e)), p, frames⟩
  | .group => some (close p frames e)
  | .value constant name =>
    some (after (fun _ => .complete (.declaration ⟨constant, name, some e⟩)) frames
      (p.run fun _ _ => Parse.expect .semicolon .semicolonMissing))
  | .bare => some ⟨.complete (.expression e), p, frames⟩
  | .body _ => none

def statement (p : Parser) (frames : List Frame) : Machine :=
  if p.rules.declares p.cursor.peek.kind then
    ⟨.declaring (p.cursor.peek.kind == .constKeyword), p.moved p.cursor.next, frames⟩
  else ⟨.task (.read .additive), p, .bare :: frames⟩

def value (p : Parser) (frames : List Frame) (constant : Bool) (name : String) : Machine :=
  if p.cursor.peek.kind = .semicolon then
    after (fun d => .complete (.declaration d)) frames
      (p.run fun _ _ => Traced.valueless constant name)
  else
    after (fun _ => .task (.read .additive)) (.value constant name :: frames)
      (p.run fun _ _ => Parse.expect .equals .equalsMissing)

def round (p : Parser) (frames : List Frame) (done : List Statement) : Machine :=
  if p.cursor.atEnd then ⟨.finished done, p, frames⟩ else ⟨.statement, p, .body done :: frames⟩

/-- A machine stops when it has read what it was to read, or with a failure. -/
def step (m : Machine) : Option Machine :=
  match m.control, m.frames with
  | .task (.read tier), frames => some (read m.parser frames tier)
  | .task (.goOn tier left), frames => some (goOn m.parser frames tier left)
  | .give e, frame :: frames => take m.parser frames e frame
  | .statement, frames => some (statement m.parser frames)
  | .declaring constant, frames =>
    some (after (fun name => .named constant name.text) frames
      (m.parser.run fun _ _ => Parse.expect .identifier .nameMissing))
  | .named constant name, frames => some (value m.parser frames constant name)
  | .complete s, .body done :: frames => some ⟨.program (done ++ [s]), m.parser, frames⟩
  | .program done, frames => some (round m.parser frames done)
  | _, _ => none

/-- From the machine on, the run comes to the result `r`: to a success that is handed on to the
frames, or to a failure, whatever is then left to be done. -/
def Comes (m : Machine) (give : α → Control) (frames : List Frame) :
    Except Diagnostic α × Parser → Prop
  | (.ok a, q) => Reaches step m ⟨give a, q, frames⟩
  | (.error d, q) => ∃ left, Reaches step m ⟨.failed d, q, left⟩

section Comes

variable {m m' : Machine} {p q : Parser} {give : α → Control} {give' : β → Control}
  {frames frames' : List Frame} {r : Except Diagnostic α × Parser}
  {parse : Rules → Nat → Parse α} {next : α → Rules → Nat → Parse β}

theorem comes_after (give : α → Control) (frames : List Frame)
    (r : Except Diagnostic α × Parser) : (after give frames r).Comes give frames r := by
  obtain ⟨result, q⟩ := r
  cases result with
  | ok a => exact .refl
  | error d => exact ⟨frames, .refl⟩

theorem Comes.trans (h : Reaches step m m') (h' : m'.Comes give frames r) :
    m.Comes give frames r := by
  obtain ⟨result, q⟩ := r
  cases result with
  | ok a => exact Relation.ReflTransGen.trans h h'
  | error d =>
    obtain ⟨left, hleft⟩ := h'
    exact ⟨left, Relation.ReflTransGen.trans h hleft⟩

theorem Comes.head (hstep : m.step = some m') (h : m'.Comes give frames r) :
    m.Comes give frames r := .trans (.single hstep) h

/-- What comes after a success is done where that leads. -/
theorem Comes.bind (h : m.Comes give frames (p.run parse))
    (hnext : ∀ a q, p.run parse = (.ok a, q) →
      Comes ⟨give a, q, frames⟩ give' frames' (q.run (next a))) :
    m.Comes give' frames'
      (p.run fun rules room => parse rules room >>= fun a => next a rules room) := by
  cases hr : p.run parse with
  | mk result q =>
    rw [hr] at h
    cases result with
    | ok a =>
      rw [Parser.run_bind_of_ok hr]
      exact (hnext a q hr).trans h
    | error d =>
      rw [Parser.run_bind_of_error hr]
      exact h

end Comes

section Expression

variable {p q s : Parser} {tier : Tier} {e : Expr} {d : Diagnostic} {frames : List Frame}

theorem step_read (loose : tier ≠ .primary) : step ⟨.task (.read tier), p, frames⟩ =
    some ⟨.task (.read tier.tighter), p, .first tier :: frames⟩ := by
  cases tier with
  | primary => exact absurd rfl loose
  | _ => rfl

theorem step_operand {rule : Option OperandRule}
    (h : p.rules.operand? p.cursor.peek.kind = rule) :
    step ⟨.task (.read .primary), p, frames⟩ = some (operand p frames rule) := by
  subst h
  rfl

theorem step_goOn_of_none {left : Expr} (h : p.operator? tier = none) :
    step ⟨.task (.goOn tier left), p, frames⟩ = some ⟨.give left, p, frames⟩ := by
  simp only [step, goOn, h]

theorem step_goOn_of_some {left : Expr} {op : Operator} (h : p.operator? tier = some op) :
    step ⟨.task (.goOn tier left), p, frames⟩ = some
      ⟨.task (.read tier.tighter), p.moved p.cursor.next, .second tier left op :: frames⟩ := by
  simp only [step, goOn, h]

theorem enter_of_refused
    (h : (p.moved p.cursor.next).enterGroup p.cursor.peek = (.error d, q)) :
    enter p frames = ⟨.failed d, q, .group :: frames⟩ := by
  rw [enter, h, after]

theorem enter_of_entered
    (h : (p.moved p.cursor.next).enterGroup p.cursor.peek = (.ok (), q)) :
    enter p frames = ⟨.task (.read .additive), q, .group :: frames⟩ := by
  rw [enter, h, after]

theorem step_operand_of_refused (rule : p.rules.operand? p.cursor.peek.kind = some .group)
    (h : (p.moved p.cursor.next).enterGroup p.cursor.peek = (.error d, q)) :
    step ⟨.task (.read .primary), p, frames⟩ = some ⟨.failed d, q, .group :: frames⟩ :=
  (step_operand rule).trans (congrArg some (enter_of_refused h))

theorem step_operand_of_entered (rule : p.rules.operand? p.cursor.peek.kind = some .group)
    (h : (p.moved p.cursor.next).enterGroup p.cursor.peek = (.ok (), q)) :
    step ⟨.task (.read .primary), p, frames⟩ =
      some ⟨.task (.read .additive), q, .group :: frames⟩ :=
  (step_operand rule).trans (congrArg some (enter_of_entered h))

theorem step_close_of_ok {t : Token} {c : Cursor}
    (h : p.cursor.expect .closeParen .groupNotClosed = .ok (t, c)) :
    step ⟨.give e, p, .group :: frames⟩ = some ⟨.give e, (p.moved c).exitGroup, frames⟩ := by
  simp only [step, take, close, h]

theorem step_close_of_error (h : p.cursor.expect .closeParen .groupNotClosed = .error d) :
    step ⟨.give e, p, .group :: frames⟩ = some ⟨.failed d, p, .group :: frames⟩ := by
  simp only [step, take, close, h]

theorem comes_of_ends {task : Parser.Task} {r : Except Diagnostic Expr × Parser}
    (h : Parser.Ends task p r) (frames : List Frame) :
    Comes ⟨.task task, p, frames⟩ .give frames r := by
  induction h generalizing frames with
  | chain loose _ _ ihfirst ihrest =>
    exact .head (step_read loose) (.trans (ihfirst _) (.head rfl (ihrest _)))
  | chainFails loose _ ihfirst =>
    exact .head (step_read loose) (ihfirst _)
  | whole ends => exact Relation.ReflTransGen.single (step_goOn_of_none ends)
  | more operator _ _ ihright ihrest =>
    exact .head (step_goOn_of_some operator) (.trans (ihright _) (.head rfl (ihrest _)))
  | moreFails operator _ ihright => exact .head (step_goOn_of_some operator) (ihright _)
  | name rule => exact .head (step_operand rule) (comes_after _ _ _)
  | number rule => exact .head (step_operand rule) (comes_after _ _ _)
  | notAnOperand rule => exact ⟨_, .single (step_operand rule)⟩
  | refused rule entered => exact ⟨_, .single (step_operand_of_refused rule entered)⟩
  | group rule entered _ closed ih =>
    exact .head (step_operand_of_entered rule entered)
      (.trans (ih _) (.head (step_close_of_ok closed) .refl))
  | groupFails rule entered _ ih => exact .head (step_operand_of_entered rule entered) (ih _)
  | notClosed rule entered _ unclosed ih =>
    exact .head (step_operand_of_entered rule entered)
      (.trans (ih _) ⟨_, .single (step_close_of_error unclosed)⟩)

theorem comes_read (p : Parser) (tier : Tier) (frames : List Frame) :
    Comes ⟨.task (.read tier), p, frames⟩ .give frames
      (p.run (Parser.Task.read tier).parse) :=
  comes_of_ends (Parser.halts_read p tier) frames

theorem comes_enter (p : Parser) (frames : List Frame) :
    (enter p frames).Comes .give frames (p.run Expr.readGroup) := by
  cases hentered : (p.moved p.cursor.next).enterGroup p.cursor.peek with
  | mk result q =>
    cases result with
    | error d =>
      rw [Parser.run_group_of_refused hentered, enter_of_refused hentered]
      exact ⟨_, .refl⟩
    | ok _ =>
      rw [Parser.run_group_of_entered hentered, enter_of_entered hentered]
      have hinside : Comes ⟨.task (.read .additive), q, .group :: frames⟩ .give
          (.group :: frames) (q.run Expr.read) := comes_read q .additive _
      cases hr : q.run Expr.read with
      | mk result s =>
        rw [hr] at hinside
        cases result with
        | error d =>
          rw [Parser.run_inside_of_error hr]
          exact hinside
        | ok e =>
          cases hclose : s.cursor.expect .closeParen .groupNotClosed with
          | error d =>
            rw [Parser.run_inside_of_unclosed hr hclose]
            exact .trans hinside ⟨_, .single (step_close_of_error hclose)⟩
          | ok r =>
            rw [Parser.run_inside_of_closed hr hclose]
            exact .trans hinside (.head (step_close_of_ok hclose) .refl)

end Expression

section Statement

variable {p : Parser}

theorem comes_initializer (p : Parser) (constant : Bool) (name : String) (frames : List Frame) :
    Comes (after (fun _ => .task (.read .additive)) (.value constant name :: frames)
        (p.run fun _ _ => Parse.expect .equals .equalsMissing))
      (fun d => .complete (.declaration d)) frames
      (p.run fun rules room => Declaration.readInitializer rules room constant name) := by
  refine (comes_after _ _ _).bind (fun _ q _ => ?_)
  refine Comes.bind (comes_read q .additive _) (fun e s _ => .head rfl ?_)
  exact (comes_after _ _ _).bind (fun _ _ _ => .refl)

theorem comes_named (p : Parser) (constant : Bool) (name : String) (frames : List Frame) :
    Comes ⟨.named constant name, p, frames⟩ (fun d => .complete (.declaration d)) frames
      (p.run fun rules room => Declaration.readValue rules room constant name) := by
  refine .head rfl ?_
  unfold value
  by_cases hk : p.cursor.peek.kind = .semicolon
  · rw [if_pos hk, Parser.run_readValue_of_semicolon hk]
    exact comes_after _ _ _
  · rw [if_neg hk, Parser.run_readValue_of_ne hk]
    exact comes_initializer p constant name frames

theorem comes_declaring (p : Parser) (frames : List Frame) :
    Comes ⟨.declaring (p.cursor.peek.kind == .constKeyword), p.moved p.cursor.next, frames⟩
      (fun d => .complete (.declaration d)) frames (p.run Declaration.read) := by
  have hread : p.run Declaration.read = (p.moved p.cursor.next).run (fun rules room =>
      Declaration.readNamed rules room (p.cursor.peek.kind == .constKeyword)) := by
    rw [Parser.run, Declaration.read_apply]
    rfl
  rw [hread]
  exact Comes.bind (.head rfl (comes_after _ _ _)) (fun name q _ => comes_named q _ name.text frames)

theorem comes_statement (p : Parser) (frames : List Frame) :
    Comes ⟨.statement, p, frames⟩ .complete frames (p.run Statement.read) := by
  refine .head rfl ?_
  unfold statement
  by_cases hk : p.rules.declares p.cursor.peek.kind = true
  · rw [if_pos hk, Parser.run_statement_of_declares hk]
    exact (comes_declaring p frames).bind (fun _ _ _ => .refl)
  · rw [if_neg hk, Parser.run_statement_of_expresses hk]
    exact Comes.bind (comes_read p .additive _) (fun e q _ => .head rfl .refl)

end Statement

section Program

/-- From here on the run comes to the statements in `done` and those of the result, or to its
failure. -/
def Concludes (m : Machine) (done : List Statement) :
    Except Diagnostic (List Statement) → Prop
  | .ok statements => ∃ q, Reaches step m ⟨.finished (done ++ statements), q, []⟩
  | .error d => ∃ q frames, Reaches step m ⟨.failed d, q, frames⟩

theorem Concludes.head {m m' : Machine} {done : List Statement}
    {r : Except Diagnostic (List Statement)} (hreach : Reaches step m m')
    (h : m'.Concludes done r) : m.Concludes done r := by
  cases r with
  | ok statements =>
    obtain ⟨q, hq⟩ := h
    exact ⟨q, Relation.ReflTransGen.trans hreach hq⟩
  | error d =>
    obtain ⟨q, frames, hq⟩ := h
    exact ⟨q, frames, Relation.ReflTransGen.trans hreach hq⟩

theorem Concludes.cons {m : Machine} {done : List Statement} {s : Statement}
    {r : Except Diagnostic (List Statement)} (h : m.Concludes (done ++ [s]) r) :
    m.Concludes done (r.map (s :: ·)) := by
  cases r with
  | ok statements =>
    obtain ⟨q, hq⟩ := h
    rw [List.append_assoc] at hq
    exact ⟨q, hq⟩
  | error d => exact h

theorem step_program_of_end {p : Parser} {done : List Statement} (h : p.cursor.atEnd = true) :
    step ⟨.program done, p, []⟩ = some ⟨.finished done, p, []⟩ := by
  simp only [step, round, if_pos h]

theorem step_program_of_open {p : Parser} {done : List Statement} (h : p.cursor.atEnd = false) :
    step ⟨.program done, p, []⟩ = some ⟨.statement, p, [.body done]⟩ := by
  simp only [step, round, h, Bool.false_eq_true, if_false]

theorem concludes_of_rounds {p : Parser} {starts : List Nat}
    {r : Except Diagnostic (List Statement)} (h : Steps.Rounds p starts r)
    (done : List Statement) : Concludes ⟨.program done, p, []⟩ done r := by
  induction h generalizing done with
  | @done p ended =>
    refine ⟨p, .single ?_⟩
    rw [List.append_nil]
    exact step_program_of_end ended
  | @fails p q d goesOn first =>
    have hstatement := comes_statement p [.body done]
    rw [(Steps.follows_statement p _).1 first] at hstatement
    obtain ⟨left, hleft⟩ := hstatement
    exact ⟨q, left, .head (step_program_of_open goesOn) hleft⟩
  | @cons p q s starts r goesOn first _ ih =>
    have hstatement := comes_statement p [.body done]
    rw [(Steps.follows_statement p _).1 first] at hstatement
    have hround : Reaches step ⟨.program done, p, []⟩ ⟨.program (done ++ [s]), q, []⟩ :=
      .head (step_program_of_open goesOn) (.tail hstatement rfl)
    exact (Concludes.head hround (ih _)).cons

def ofTokens (config : Config) (ts : List Token) : Machine :=
  ⟨.program [], .ofTokens (.standard config.matching) config.maxDepth ts, []⟩

theorem concludes_ofTokens (config : Config) (ts : List Token) :
    (ofTokens config ts).Concludes [] ((Program.ofTokens config ts).map Program.body) := by
  obtain ⟨starts, r, hrounds⟩ := Steps.exists_rounds
    (.ofTokens (.standard config.matching) config.maxDepth ts)
  rw [Program.map_body_ofTokens, hrounds.eq_statements]
  exact concludes_of_rounds hrounds []

end Program

end Machine

end LetArith
