import LetArith.Proofs.Grammar.Recognition
import LetArith.Proofs.Tree.Printed

/-! Where the leaves of a program come from.  What stands before a token decides what the token is
used for: to be a leaf, to be an operator, or to show how the others belong together.  The leaves of
a program are those of its tokens that are used as leaves, in their order, and so are its operators;
no name and no number is left over. -/

namespace LetArith

/-- What stands in a tree between its operators. -/
inductive Leaf where
  | name (s : String)
  | number (x : Binary64)

namespace Expr

def leaves : Expr → List Leaf
  | binary left _ right => left.leaves ++ right.leaves
  | identifier symbol => [.name symbol]
  | number value => [.number value]

def operators : Expr → List Operator
  | binary left op right => left.operators ++ op :: right.operators
  | identifier _ => []
  | number _ => []

theorem mem_leaves_of_mem_names {e : Expr} {s : String} (h : s ∈ e.names) : .name s ∈ e.leaves := by
  induction e with
  | binary l op r ihl ihr => exact List.mem_append.2 ((List.mem_append.1 h).imp ihl ihr)
  | identifier symbol => simpa [names, leaves] using h
  | number x => cases h

theorem mem_leaves_of_mem_numbers {e : Expr} {x : Binary64} (h : x ∈ e.numbers) :
    .number x ∈ e.leaves := by
  induction e with
  | binary l op r ihl ihr => exact List.mem_append.2 ((List.mem_append.1 h).imp ihl ihr)
  | identifier symbol => cases h
  | number y => simpa [numbers, leaves] using h

end Expr

namespace Token

/-- The leaf that a token is where an operand is called for. -/
def leaf? (t : Token) : Option Leaf :=
  match t.kind with
  | .identifier => some (.name t.text)
  | .number => (Binary64.finiteOfText? t.text).map .number
  | _ => none

theorem of_leaf?_name {t : Token} {s : String} (h : t.leaf? = some (.name s)) :
    t.kind = .identifier ∧ t.text = s := by
  unfold leaf? at h
  split at h
  · next hkind =>
    cases h
    exact ⟨hkind, rfl⟩
  · next hkind =>
    obtain ⟨x, _, hx⟩ := Option.map_eq_some_iff.1 h
    cases hx
  · cases h

theorem of_leaf?_number {t : Token} {x : Binary64} (h : t.leaf? = some (.number x)) :
    t.kind = .number ∧ Binary64.finiteOfText? t.text = some x := by
  unfold leaf? at h
  split at h
  · cases h
  · next hkind =>
    obtain ⟨y, hy, hx⟩ := Option.map_eq_some_iff.1 h
    cases hx
    exact ⟨hkind, hy⟩
  · cases h

end Token

namespace Matching

variable {m : Matching} {tier : Tier} {t : Token} {op : Operator}

def operatorOf? (m : Matching) (t : Token) : Option Operator :=
  (m.operatorText? t).bind Operator.ofLexeme?

theorem operatorOf?_of_operator? (h : m.operator? tier t = some op) : m.operatorOf? t = some op :=
  (Option.filter_eq_some_iff.1 h).1

theorem Neutral.operatorOf? (h : m.Neutral t) : m.operatorOf? t = none := by
  cases hop : m.operatorOf? t with
  | none => rfl
  | some op =>
    have hsome : m.operator? op.tier t = some op := Option.filter_eq_some_iff.2 ⟨hop, by simp⟩
    cases (h op.tier).symm.trans hsome

end Matching

inductive Use where
  | leaf
  | operator
  | mark
  deriving DecidableEq

/-- What stands before a token: something that an operand or a statement follows, an operand, the
keyword of a declaration, or its name. -/
inductive Stage where
  | start
  | operand
  | keyword
  | name
  deriving DecidableEq

namespace Stage

/-- The use of a token where an operand or a statement begins, and what then stands before the
next one. -/
def first (t : Token) : Use × Stage :=
  match t.kind with
  | .identifier => (.leaf, .operand)
  | .number => (.leaf, .operand)
  | .letKeyword => (.mark, .keyword)
  | .constKeyword => (.mark, .keyword)
  | _ => (.mark, .start)

/-- The use of a token, and what then stands before the next one.  A token with the text or kind
of an operator is one where an operand stands before it, and nowhere else. -/
def step (m : Matching) : Stage → Token → Use × Stage
  | start, t => first t
  | operand, t =>
    if (m.operatorOf? t).isSome then (.operator, .start)
    else
      match t.kind with
      | .closeParen => (.mark, .operand)
      | .semicolon => (.mark, .start)
      | _ => first t
  | keyword, _ => (.leaf, .name)
  | name, _ => (.mark, .start)

end Stage

namespace Matching

def stage (m : Matching) : Stage → List Token → Stage :=
  List.foldl (fun stage t => (stage.step m t).2)

def used (m : Matching) (use : Use) : Stage → List Token → List Token
  | _, [] => []
  | stage, t :: ts =>
    if (stage.step m t).1 = use then t :: used m use (stage.step m t).2 ts
    else used m use (stage.step m t).2 ts

variable {m : Matching} {use : Use} {stage : Stage} {t : Token}

theorem stage_append (u v : List Token) :
    m.stage stage (u ++ v) = m.stage (m.stage stage u) v := List.foldl_append

theorem used_append (u v : List Token) :
    m.used use stage (u ++ v) = m.used use stage u ++ m.used use (m.stage stage u) v := by
  induction u generalizing stage with
  | nil => rfl
  | cons t u ih =>
    rw [List.cons_append, used, used]
    split
    · rw [ih, List.cons_append]
      rfl
    · exact ih

theorem sublist_used (w : List Token) : (m.used use stage w).Sublist w := by
  induction w generalizing stage with
  | nil => exact .slnil
  | cons t w ih =>
    rw [used]
    split
    · exact ih.cons_cons t
    · exact ih.cons t

end Matching

namespace Statement

def leaves : Statement → List Leaf
  | declaration d => .name d.name :: d.value.elim [] Expr.leaves
  | expression e => e.leaves

def operators : Statement → List Operator
  | declaration d => d.value.elim [] Expr.operators
  | expression e => e.operators

variable {s : Statement}

theorem mem_leaves_of_mem_names {name : String} (h : name ∈ s.names) : .name name ∈ s.leaves := by
  cases s with
  | expression e => exact Expr.mem_leaves_of_mem_names h
  | declaration d =>
    rcases List.mem_cons.1 h with rfl | h
    · exact List.mem_cons_self
    · cases hv : d.value with
      | none => simp [hv] at h
      | some e =>
        have hmem : name ∈ e.names := by simpa [hv] using h
        simp [leaves, hv, Expr.mem_leaves_of_mem_names hmem]

theorem mem_leaves_of_mem_numbers {x : Binary64} (h : x ∈ s.numbers) : .number x ∈ s.leaves := by
  cases s with
  | expression e => exact Expr.mem_leaves_of_mem_numbers h
  | declaration d =>
    cases hv : d.value with
    | none => simp [numbers, hv] at h
    | some e =>
      have hmem : x ∈ e.numbers := by simpa [numbers, hv] using h
      simp [leaves, hv, Expr.mem_leaves_of_mem_numbers hmem]

end Statement

namespace Program

def leaves (p : Program) : List Leaf := p.body.flatMap Statement.leaves

def operators (p : Program) : List Operator := p.body.flatMap Statement.operators

end Program

/-- From one stage to another the tokens account for leaves and operators: those used as such are
the ones that these were read from, and the others are neither names nor numbers. -/
structure Accounts (m : Matching) (s : Stage) (w : List Token) (ls : List Leaf)
    (ops : List Operator) (s' : Stage) : Prop where
  ends : m.stage s w = s'
  leaves : (m.used .leaf s w).map Token.leaf? = ls.map some
  operators : (m.used .operator s w).map m.operatorOf? = ops.map some
  marks : ∀ t ∈ m.used .mark s w, t.kind ≠ .identifier ∧ t.kind ≠ .number

namespace Accounts

variable {m : Matching} {s s' s'' : Stage} {t : Token} {u v w : List Token} {ls ls' : List Leaf}
  {ops ops' : List Operator}

theorem nil : Accounts m s [] [] [] s where
  ends := rfl
  leaves := rfl
  operators := rfl
  marks := by simp [Matching.used]

theorem append (h : Accounts m s u ls ops s') (h' : Accounts m s' v ls' ops' s'') :
    Accounts m s (u ++ v) (ls ++ ls') (ops ++ ops') s'' where
  ends := by
    rw [Matching.stage_append, h.ends, h'.ends]
  leaves := by
    rw [Matching.used_append, h.ends, List.map_append, h.leaves, h'.leaves, List.map_append]
  operators := by
    rw [Matching.used_append, h.ends, List.map_append, h.operators, h'.operators, List.map_append]
  marks := by
    rw [Matching.used_append, h.ends]
    intro t ht
    exact (List.mem_append.1 ht).elim (h.marks t) (h'.marks t)

theorem leaf {l : Leaf} (hstep : s.step m t = (.leaf, s')) (hleaf : t.leaf? = some l)
    (h : Accounts m s' w ls ops s'') : Accounts m s (t :: w) (l :: ls) ops s'' := by
  have hone : Accounts m s [t] [l] [] s' := by
    constructor <;> simp [Matching.stage, Matching.used, hstep, hleaf]
  exact hone.append h

theorem operator {op : Operator} (hstep : s.step m t = (.operator, s'))
    (hop : m.operatorOf? t = some op) (h : Accounts m s' w ls ops s'') :
    Accounts m s (t :: w) ls (op :: ops) s'' := by
  have hone : Accounts m s [t] [] [op] s' := by
    constructor <;> simp [Matching.stage, Matching.used, hstep, hop]
  exact hone.append h

theorem mark (hstep : s.step m t = (.mark, s')) (hkind : t.kind ≠ .identifier ∧ t.kind ≠ .number)
    (h : Accounts m s' w ls ops s'') : Accounts m s (t :: w) ls ops s'' := by
  have hone : Accounts m s [t] [] [] s' := by
    constructor <;> simp [Matching.stage, Matching.used, hstep, hkind]
  exact hone.append h

/-- What stands before the tokens makes a difference to the first of them only. -/
theorem of_step_eq (h : Accounts m s (t :: w) ls ops s'') (hstep : s'.step m t = s.step m t) :
    Accounts m s' (t :: w) ls ops s'' := by
  obtain ⟨hends, hleaves, hoperators, hmarks⟩ := h
  constructor <;> simp_all [Matching.stage, Matching.used]

theorem exists_of_mem_leaves (h : Accounts m s w ls ops s') {l : Leaf} (hl : l ∈ ls) :
    ∃ t ∈ w, t.leaf? = some l := by
  have hsome : some l ∈ (m.used .leaf s w).map Token.leaf? := by
    rw [h.leaves]
    exact List.mem_map_of_mem hl
  obtain ⟨t, ht, hleaf⟩ := List.mem_map.1 hsome
  exact ⟨t, (Matching.sublist_used w).mem ht, hleaf⟩

end Accounts

namespace Expr

variable {m : Matching} {tier : Tier} {room : Nat} {w : List Token} {next : Token} {e : Expr}

theorem Derives.accounts (h : Derives m tier room w next e) :
    Accounts m .start w e.leaves e.operators .operand := by
  induction h with
  | @name room t next kind =>
    exact .leaf (by simp [Stage.step, Stage.first, kind]) (by simp [Token.leaf?, kind]) .nil
  | @number room t next x kind value =>
    exact .leaf (by simp [Stage.step, Stage.first, kind]) (by simp [Token.leaf?, kind, value]) .nil
  | @group room o c next w e opening inside ends closing ih =>
    have hneutral : m.Neutral c := Whole.neutral ⟨inside, ends⟩
    have hc := hneutral.operatorOf?
    have hclose : Accounts m .operand [c] [] [] .operand :=
      .mark (by simp [Stage.step, hc, closing]) (by simp [closing]) .nil
    have hin := ih.append hclose
    simp only [List.append_nil] at hin
    exact .mark (by simp [Stage.step, Stage.first, opening]) (by simp [opening]) hin
  | one _ _ ih => exact ih
  | @more tier room w v t next op l r _ operator _ _ ihl ihr =>
    have hop := Matching.operatorOf?_of_operator? operator
    exact ihl.append (.operator (by simp [Stage.step, hop]) hop ihr)

end Expr

namespace Statement

variable {m : Matching} {room : Nat} {w : List Token} {next : Token} {s : Statement}

theorem Derives.step_head {t : Token} (h : Derives m room (t :: w) next s) (ht : m.Neutral t) :
    Stage.step m .operand t = Stage.step m .start t := by
  have hop := ht.operatorOf?
  have hkind : t.kind ≠ .closeParen ∧ t.kind ≠ .semicolon := by
    cases h with
    | bare keyword _ _ => simp [keyword]
    | valued keyword _ _ _ _ => rcases keyword with hk | hk <;> simp [hk]
    | expression value => rcases value.1.head_kind with hk | hk | hk <;> simp [hk]
  simp only [Stage.step, hop]
  split
  · next h => cases h
  · split
    · next hk => exact absurd hk hkind.1
    · next hk => exact absurd hk hkind.2
    · rfl

/-- After an expression an operator would still belong to it, after a declaration it would not. -/
theorem Derives.accounts (h : Derives m room w next s) :
    ∃ s', Accounts m .start w s.leaves s.operators s' ∧
      (s' = .start ∨ s' = .operand ∧ m.Neutral next) := by
  cases h with
  | @bare k n s _ keyword name semicolon =>
    refine ⟨.start, ?_, Or.inl rfl⟩
    have hsemicolon : Accounts m .name [s] [] [] .start := .mark rfl (by simp [semicolon]) .nil
    have hname : Accounts m .keyword [n, s] [.name n.text] [] .start :=
      hsemicolon.leaf rfl (by simp [Token.leaf?, name])
    exact hname.mark (by simp [Stage.step, Stage.first, keyword]) (by simp [keyword])
  | @valued k n q s _ v e keyword name equals value semicolon =>
    refine ⟨.start, ?_, Or.inl rfl⟩
    have hs : m.operatorOf? s = none := value.neutral.operatorOf?
    have hsemicolon : Accounts m .operand [s] [] [] .start :=
      .mark (by simp [Stage.step, hs, semicolon]) (by simp [semicolon]) .nil
    have hvalue := value.1.accounts.append hsemicolon
    simp only [List.append_nil] at hvalue
    have hequals : Accounts m .name (q :: (v ++ [s])) e.leaves e.operators .start :=
      hvalue.mark rfl (by simp [equals])
    have hname : Accounts m .keyword (n :: q :: (v ++ [s])) (.name n.text :: e.leaves) e.operators
        .start := hequals.leaf rfl (by simp [Token.leaf?, name])
    rcases keyword with hk | hk <;>
      exact hname.mark (by simp [Stage.step, Stage.first, hk]) (by simp [hk])
  | expression value => exact ⟨.operand, value.1.accounts, Or.inr ⟨rfl, value.neutral⟩⟩

theorem Derives.value_ne_none (h : Derives m room w next s) :
    ∀ d, s = .declaration d → d.constant = true → d.value ≠ none := by
  intro d hd hconstant
  cases h with
  | bare _ _ _ =>
    cases hd
    cases hconstant
  | valued _ _ _ _ _ =>
    cases hd
    simp
  | expression _ => cases hd

end Statement

namespace Program

variable {m : Matching} {room : Nat} {w : List Token} {stop : Token} {ss : List Statement}

theorem Derives.accounts (h : Derives m room w stop ss) {s : Stage}
    (hs : s = .start ∨ s = .operand ∧ m.Neutral (w.headD stop)) :
    ∃ s', Accounts m s w (ss.flatMap Statement.leaves) (ss.flatMap Statement.operators) s' := by
  induction h generalizing s with
  | nil => exact ⟨s, .nil⟩
  | @cons u v stop st ss first _ ih =>
    obtain ⟨s₁, hfirst, hs₁⟩ := first.accounts
    obtain ⟨s₂, hothers⟩ := ih hs₁
    refine ⟨s₂, Accounts.append ?_ hothers⟩
    rcases hs with rfl | ⟨rfl, hneutral⟩
    · exact hfirst
    · obtain ⟨t, ts, rfl⟩ := List.exists_cons_of_ne_nil first.ne_nil
      exact hfirst.of_step_eq (first.step_head hneutral)

theorem Derives.value_ne_none (h : Derives m room w stop ss) {d : Declaration}
    (hd : .declaration d ∈ ss) (hconstant : d.constant = true) : d.value ≠ none := by
  induction h with
  | nil => cases hd
  | cons first _ ih =>
    rcases List.mem_cons.1 hd with hd | hd
    · exact first.value_ne_none d hd.symm hconstant
    · exact ih hd

variable {config : Config} {ts : List Token} {p : Program}

theorem mem_leaves_of_mem_names {name : String} (h : name ∈ p.names) : .name name ∈ p.leaves := by
  obtain ⟨s, hs, hname⟩ := List.mem_flatMap.1 h
  exact List.mem_flatMap.2 ⟨s, hs, Statement.mem_leaves_of_mem_names hname⟩

theorem mem_leaves_of_mem_numbers {x : Binary64} (h : x ∈ p.numbers) : .number x ∈ p.leaves := by
  obtain ⟨s, hs, hx⟩ := List.mem_flatMap.1 h
  exact List.mem_flatMap.2 ⟨s, hs, Statement.mem_leaves_of_mem_numbers hx⟩

/-- Whatever the tokens are, a constant of the program read from them has a value, its numbers are
finite, and the program agrees with itself.  Its names and numbers are, one by one and in order,
those of the tokens used as leaves, and its operators those of the tokens used as operators; what
is left are marks. -/
theorem ofTokens_leaves (hw : w = ts.takeWhile (fun t => !t.isEnd))
    (h : ofTokens config ts = .ok p) :
    (∀ d, .declaration d ∈ p.body → d.constant = true → d.value ≠ none) ∧
      (∀ x ∈ p.numbers, x.isFinite = true ∧
        ∃ t ∈ w, t.kind = .number ∧ Binary64.ofText? t.text = some x) ∧
      (∀ name ∈ p.names, ∃ t ∈ w, t.kind = .identifier ∧ t.text = name) ∧
      (config.matching.used .leaf .start w).Sublist w ∧
      (config.matching.used .leaf .start w).map Token.leaf? = p.leaves.map some ∧
      (config.matching.used .operator .start w).map config.matching.operatorOf? =
        p.operators.map some ∧
      (∀ t ∈ config.matching.used .mark .start w, t.kind ≠ .identifier ∧ t.kind ≠ .number) ∧
      p.agrees p = true := by
  have hd := ofTokens_eq_ok_iff_cursor.1 h
  rw [Cursor.ahead_ofTokens, ← hw] at hd
  obtain ⟨_, haccounts⟩ := hd.accounts (Or.inl rfl)
  have hnumbers : ∀ x ∈ p.numbers, ∃ t ∈ w, t.kind = .number ∧
      Binary64.finiteOfText? t.text = some x := by
    intro x hx
    obtain ⟨t, ht, hleaf⟩ := haccounts.exists_of_mem_leaves (mem_leaves_of_mem_numbers hx)
    exact ⟨t, ht, Token.of_leaf?_number hleaf⟩
  refine ⟨fun d => hd.value_ne_none, fun x hx => ?_, fun name hname => ?_, Matching.sublist_used w,
    haccounts.leaves, haccounts.operators, haccounts.marks, agrees_self fun x hx => ?_⟩
  · obtain ⟨t, ht, hkind, hvalue⟩ := hnumbers x hx
    exact ⟨Binary64.isFinite_of_finiteOfText? hvalue, t, ht, hkind,
      (Option.filter_eq_some_iff.1 hvalue).1⟩
  · obtain ⟨t, ht, hleaf⟩ := haccounts.exists_of_mem_leaves (mem_leaves_of_mem_names hname)
    exact ⟨t, ht, Token.of_leaf?_name hleaf⟩
  · obtain ⟨t, _, _, hvalue⟩ := hnumbers x hx
    exact Binary64.isFinite_of_finiteOfText? hvalue

/-- A name and a number, with a sign between them that is a name too. -/
theorem ofTokens_leaves_plus :
    ∃ ts p, ts.map Token.lexeme = [(.constKeyword, "const"), (.identifier, "+"), (.equals, "="),
        (.identifier, "+"), (.identifier, "+"), (.number, "-0"), (.semicolon, ";")] ∧
      ofTokens {} ts = .ok p ∧ p.leaves.length = 3 ∧
      (Matching.byText.used .leaf .start ts).map Token.leaf? = p.leaves.map some ∧
      (Matching.byText.used .operator .start ts).map Matching.byText.operatorOf? =
        p.operators.map some ∧
      p.agrees p = true := by
  have h : ofTokens {} [⟨.constKeyword, "const", Span.null⟩, ⟨.identifier, "+", Span.null⟩,
      ⟨.equals, "=", Span.null⟩, ⟨.identifier, "+", Span.null⟩, ⟨.identifier, "+", Span.null⟩,
      ⟨.number, "-0", Span.null⟩, ⟨.semicolon, ";", Span.null⟩] =
      .ok ⟨[.declaration ⟨true, "+",
        some (.binary (.identifier "+") .add (.number (.negate .zero)))⟩]⟩ := by
    decide +kernel
  obtain ⟨_, _, _, _, hleaves, hoperators, _, hagrees⟩ := ofTokens_leaves rfl h
  exact ⟨_, _, rfl, h, rfl, hleaves, hoperators, hagrees⟩

end Program

end LetArith
