import LetArith.Proofs.Grammar.Nesting
import Mathlib.Data.List.Forall2

/-! Parsers side by side.  Tokens answer each other if they do not differ in what a parser reads
of them; where the tokens at two places do, one by one, the parsers go on in step, with the same
moves, and end with trees that differ in their names at most, or with one complaint about tokens
that answer each other. -/

namespace LetArith

namespace Expr

def rename (r : String → String) : Expr → Expr
  | binary left op right => binary (left.rename r) op (right.rename r)
  | identifier symbol => identifier (r symbol)
  | number value => number value

@[simp] theorem rename_id (e : Expr) : e.rename id = e := by
  induction e with
  | binary l op r ihl ihr => rw [rename, ihl, ihr]
  | identifier s => rfl
  | number x => rfl

end Expr

def Declaration.rename (r : String → String) (d : Declaration) : Declaration :=
  ⟨d.constant, r d.name, d.value.map (Expr.rename r)⟩

namespace Statement

def rename (r : String → String) : Statement → Statement
  | declaration d => declaration (d.rename r)
  | expression e => expression (e.rename r)

@[simp] theorem rename_id (s : Statement) : s.rename id = s := by
  cases s with
  | declaration d =>
    obtain ⟨constant, name, value⟩ := d
    cases value <;> simp [rename, Declaration.rename]
  | expression e => simp [rename]

end Statement

/-- What parsers read of a token under one matching, they read of the other token under another,
but for names, which they take over. -/
structure Token.Answers (m m' : Matching) (r : String → String) (t t' : Token) : Prop where
  kind : t'.kind = t.kind
  operator : ∀ tier, m'.operator? tier t' = m.operator? tier t
  number : t.kind = .number → Binary64.finiteOfText? t'.text = Binary64.finiteOfText? t.text
  name : t.kind = .identifier → t'.text = r t.text

section Parallel

variable (R : Token → Token → Prop)

/-- The same complaint about two tokens. -/
inductive Diagnostic.Parallel : Diagnostic → Diagnostic → Prop where
  | unexpected {t t' : Token} (complaint : Complaint) (tokens : R t t') :
      Parallel (.unexpected t complaint) (.unexpected t' complaint)
  | badNumber {t t' : Token} (tokens : R t t') : Parallel (.badNumber t) (.badNumber t')

/-- The tokens from two places on, up to the end. -/
structure Cursor.Parallel (c c' : Cursor) : Prop where
  ahead : List.Forall₂ R c.ahead c'.ahead
  stop : R c.stop c'.stop

structure Failure.Parallel (f f' : Failure) : Prop where
  diagnostic : f.diagnostic.Parallel R f'.diagnostic
  cursor : f.cursor.Parallel R f'.cursor
  opened : f.opened = f'.opened

namespace Parse

/-- Two successes or two failures. -/
inductive Agree {α β : Type} (V : α → β → Prop) :
    Except Failure (α × Cursor) → Except Failure (β × Cursor) → Prop where
  | ok {a : α} {b : β} {c c' : Cursor} (value : V a b) (cursor : c.Parallel R c') :
      Agree V (.ok (a, c)) (.ok (b, c'))
  | error {f f' : Failure} (failure : f.Parallel R f') : Agree V (.error f) (.error f')

/-- From places with the same tokens ahead two parsers end in the same way. -/
def Parallel {α β : Type} (V : α → β → Prop) (p : Parse α) (q : Parse β) : Prop :=
  ∀ c c', c.Parallel R c' → Agree R V (p c) (q c')

end Parse

/-- The same move, at tokens with one index. -/
inductive Move.Parallel : Move → Move → Prop where
  | enter {t t' : Token} (index : Nat) (tokens : R t t') :
      Parallel (.enter index t) (.enter index t')
  | leave : Parallel .leave .leave
  | blame (index : Nat) : Parallel (.blame index) (.blame index)

namespace Traced

/-- From these two places two parsers end in the same way.  If as many tokens stand before the one
as before the other, the parsers make the same moves, and so it is where they end. -/
structure ParallelAt {α β : Type} (V : α → β → Prop) (p : Traced α) (q : Traced β)
    (c c' : Cursor) : Prop where
  parse : Parse.Agree R V (p.parse c) (q.parse c')
  position : c'.position = c.position → ∀ a b d d', p.parse c = .ok (a, d) →
    q.parse c' = .ok (b, d') → d'.position = d.position
  moves : c'.position = c.position → List.Forall₂ (Move.Parallel R) (p.moves c) (q.moves c')

def Parallel {α β : Type} (V : α → β → Prop) (p : Traced α) (q : Traced β) : Prop :=
  ∀ c c', c.Parallel R c' → ParallelAt R V p q c c'

end Traced

end Parallel

namespace Cursor.Parallel

variable {R : Token → Token → Prop} {c c' : Cursor}

theorem peek (h : c.Parallel R c') : R c.peek c'.peek := by
  have hahead := h.ahead
  unfold Cursor.peek
  generalize c.ahead = w at hahead
  generalize c'.ahead = w' at hahead
  cases hahead with
  | nil => exact h.stop
  | cons first _ => exact first

theorem next (h : c.Parallel R c') : c.next.Parallel R c'.next := by
  have hahead := h.ahead
  refine ⟨?_, by rw [stop_next, stop_next]; exact h.stop⟩
  rw [ahead_next, ahead_next]
  generalize c.ahead = w at hahead
  generalize c'.ahead = w' at hahead
  cases hahead with
  | nil => exact .nil
  | cons _ others => exact others

theorem remaining (h : c.Parallel R c') : c'.remaining = c.remaining := h.ahead.length_eq.symm

theorem ahead_eq_nil_iff (h : c.Parallel R c') : c'.ahead = [] ↔ c.ahead = [] := by
  rw [← List.length_eq_zero_iff, ← List.length_eq_zero_iff, h.ahead.length_eq]

theorem atEnd_eq (h : c.Parallel R c') : c'.atEnd = c.atEnd := by
  rw [Bool.eq_iff_iff, atEnd_iff, atEnd_iff, h.ahead_eq_nil_iff]

theorem position_next (h : c.Parallel R c') (hpos : c'.position = c.position) :
    c'.next.position = c.next.position := by
  have hsum := c.position_add_remaining_next
  have hsum' := c'.position_add_remaining_next
  have hnow := h.remaining
  have hnext := h.next.remaining
  omega

/-- Where parsers go on in step, they pass as many tokens. -/
theorem position_of_passes {d d' : Cursor} {w w' : List Token} (h : c.Parallel R c')
    (hd : d.Parallel R d') (hw : c.Passes w d) (hw' : c'.Passes w' d')
    (hpos : c'.position = c.position) : d'.position = d.position := by
  have hsum := hw.remaining_eq
  have hsum' := hw'.remaining_eq
  have hnow := h.remaining
  have hthen := hd.remaining
  rw [hw.position_eq, hw'.position_eq]
  omega

end Cursor.Parallel

namespace Parse

variable {α β : Type} {R : Token → Token → Prop} {V : α → β → Prop} {p : Parse α} {q : Parse β}

theorem parallel_pure {a : α} {b : β} (h : V a b) : Parallel R V (pure a) (pure b) :=
  fun _ _ hc => .ok h hc

theorem parallel_advance : Parallel R R advance advance := fun _ _ hc => .ok hc.peek hc.next

theorem Agree.inGroup {c c' : Cursor} (h : Agree R V (p c) (q c')) :
    Agree R V (p.inGroup c) (q.inGroup c') := by
  unfold Parse.inGroup
  generalize p c = x at h
  generalize q c' = y at h
  cases h with
  | ok value cursor => exact .ok value cursor
  | error failure =>
    exact .error ⟨failure.diagnostic, failure.cursor, congrArg (· + 1) failure.opened⟩

theorem parallel_expect (hR : ∀ t t', R t t' → t'.kind = t.kind) {kind : Kind}
    {complaint : Complaint} :
    Parallel R (fun t t' => t.kind = kind ∧ R t t') (expect kind complaint)
      (expect kind complaint) := by
  intro c c' hc
  have hkind := hR _ _ hc.peek
  unfold expect Cursor.expect
  rw [hkind]
  by_cases h : c.peek.kind = kind
  · rw [if_pos h, if_pos h]
    exact .ok ⟨h, hc.peek⟩ hc.next
  · rw [if_neg h, if_neg h]
    exact .error ⟨.unexpected complaint hc.peek, hc, rfl⟩

end Parse

namespace Traced

variable {α β γ δ : Type} {R : Token → Token → Prop} {V : α → β → Prop} {W : γ → δ → Prop}
  {c c' : Cursor}

theorem parallel_pure {a : α} {b : β} (h : V a b) :
    Parallel R V (pure a : Traced α) (pure b : Traced β) := by
  refine fun c c' hc => ⟨Parse.parallel_pure h c c' hc, fun hpos _ _ _ _ hp hq => ?_, fun _ => .nil⟩
  cases hp
  cases hq
  exact hpos

/-- A parser that reads a token at most gives up in step with another where it fails with it. -/
theorem parallelAt_token {p : Parse α} {q : Parse β} (hc : c.Parallel R c')
    (h : Parse.Agree R V (p c) (q c')) (hp : p.Forward) (hq : q.Forward) :
    ParallelAt R V (token p) (token q) c c' := by
  refine ⟨h, fun hpos a b d d' hpd hqd => ?_, fun hpos => ?_⟩
  · obtain ⟨w, hw⟩ := hp c a d hpd
    obtain ⟨w', hw'⟩ := hq c' b d' hqd
    replace hpd : p c = _ := hpd
    replace hqd : q c' = _ := hqd
    rw [hpd, hqd] at h
    cases h with
    | ok _ cursor => exact hc.position_of_passes cursor hw hw' hpos
  · unfold token
    dsimp only
    generalize p c = x at h
    generalize q c' = y at h
    cases h with
    | ok => exact .nil
    | error =>
      rw [hpos]
      exact .cons (.blame _) .nil

theorem ParallelAt.bind {p : Traced α} {q : Traced β} {f : α → Traced γ} {g : β → Traced δ}
    (h : ParallelAt R V p q c c') (hf : ∀ a b, V a b → Parallel R W (f a) (g b)) :
    ParallelAt R W (p >>= f) (q >>= g) c c' := by
  obtain ⟨hparse, hposition, hmoves⟩ := h
  generalize hp : p.parse c = x at hparse
  generalize hq : q.parse c' = y at hparse
  cases hparse with
  | @ok a b d d' value cursor =>
    have hrest := hf a b value d d' cursor
    refine ⟨?_, fun hpos => ?_, fun hpos => ?_⟩
    · rw [parse_bind, parse_bind, Parse.bind_of_ok hp, Parse.bind_of_ok hq]
      exact hrest.parse
    · rw [parse_bind, parse_bind, Parse.bind_of_ok hp, Parse.bind_of_ok hq]
      exact hrest.position (hposition hpos a b d d' hp hq)
    · rw [moves_bind_of_ok hp, moves_bind_of_ok hq]
      exact List.rel_append (hmoves hpos) (hrest.moves (hposition hpos a b d d' hp hq))
  | error failure =>
    refine ⟨?_, fun _ a b d d' hpd => ?_, fun hpos => ?_⟩
    · rw [parse_bind, parse_bind, Parse.bind_of_error hp, Parse.bind_of_error hq]
      exact .error failure
    · rw [parse_bind, Parse.bind_of_error hp] at hpd
      cases hpd
    · rw [moves_bind_of_error hp, moves_bind_of_error hq]
      exact hmoves hpos

theorem Parallel.bind {p : Traced α} {q : Traced β} {f : α → Traced γ} {g : β → Traced δ}
    (h : Parallel R V p q) (hf : ∀ a b, V a b → Parallel R W (f a) (g b)) :
    Parallel R W (p >>= f) (q >>= g) :=
  fun c c' hc => (h c c' hc).bind hf

theorem parallel_ofPlace {p : Cursor → Traced α} {q : Cursor → Traced β}
    (h : ∀ c c', c.Parallel R c' → ParallelAt R V (p c) (q c') c c') :
    Parallel R V (ofPlace p) (ofPlace q) := by
  intro c c' hc
  obtain ⟨hparse, hposition, hmoves⟩ := h c c' hc
  exact ⟨hparse, hposition, hmoves⟩

theorem parallel_advance : Parallel R R (token Parse.advance) (token Parse.advance) :=
  fun c c' hc =>
    parallelAt_token hc (Parse.parallel_advance c c' hc) Parse.forward_advance Parse.forward_advance

theorem parallel_expect (hR : ∀ t t', R t t' → t'.kind = t.kind) {kind : Kind}
    {complaint : Complaint} (hk : kind ≠ .endOfInput) :
    Parallel R (fun t t' => t.kind = kind ∧ R t t') (token (Parse.expect kind complaint))
      (token (Parse.expect kind complaint)) :=
  fun c c' hc => parallelAt_token hc (Parse.parallel_expect hR c c' hc)
    (Parse.advances_expect hk).forward (Parse.advances_expect hk).forward

/-- Parsers that fail at once, over tokens that answer each other. -/
theorem parallelAt_fail {p : Parse α} {q : Parse β} {f f' : Failure}
    (hp : p c = .error f) (hq : q c' = .error f') (hf : f.Parallel R f') :
    ParallelAt R V (token p) (token q) c c' := by
  refine ⟨?_, fun _ a b d d' hpd => ?_, fun hpos => ?_⟩
  · show Parse.Agree R V (p c) (q c')
    rw [hp, hq]
    exact .error hf
  · cases hp.symm.trans hpd
  · unfold token
    dsimp only
    rw [hp, hq, hpos]
    exact .cons (.blame _) .nil

end Traced

section Grammar

variable {R : Token → Token → Prop} {m m' : Matching} {r : String → String}
  (hR : ∀ t t', R t t' → t.Answers m m' r t')

include hR

namespace Traced

theorem parallel_chainFrom {tier : Tier} {operand operand' : Traced Expr}
    (hop : Parallel R (fun e e' => e' = e.rename r) operand operand') (n : Nat) (left : Expr) :
    Parallel R (fun e e' => e' = e.rename r) (chainFrom (m.operator? tier) operand n left)
      (chainFrom (m'.operator? tier) operand' n (left.rename r)) := by
  induction n generalizing left with
  | zero => exact parallel_pure rfl
  | succ n ih =>
    refine parallel_ofPlace (fun c c' hc => ?_)
    rw [(hR _ _ hc.peek).operator tier]
    cases m.operator? tier c.peek with
    | none => exact parallel_pure (by rfl) c c' hc
    | some op =>
      refine parallel_advance.bind (fun _ _ _ => hop.bind (fun right right' hright => ?_)) c c' hc
      subst hright
      exact ih (.binary left op right)

theorem parallel_chain {tier : Tier} {operand operand' : Traced Expr}
    (hop : Parallel R (fun e e' => e' = e.rename r) operand operand') :
    Parallel R (fun e e' => e' = e.rename r) (chain (m.operator? tier) operand)
      (chain (m'.operator? tier) operand') := by
  refine hop.bind (fun left left' hleft => parallel_ofPlace (fun c c' hc => ?_))
  subst hleft
  rw [hc.remaining]
  exact parallel_chainFrom hR hop (c.remaining + 1) left c c' hc

theorem parallelAt_readNumber {c c' : Cursor} (hc : c.Parallel R c') (hk : c.peek.kind = .number) :
    ParallelAt R (fun e e' => e' = e.rename r) (token Expr.readNumber) (token Expr.readNumber)
      c c' := by
  refine parallelAt_token hc ?_ Expr.advances_readNumber.forward Expr.advances_readNumber.forward
  have hanswers := hR _ _ hc.peek
  rw [Expr.readNumber_apply hk, Expr.readNumber_apply (hanswers.kind.trans hk), hanswers.number hk]
  cases Binary64.finiteOfText? c.peek.text with
  | some x => exact .ok rfl hc.next
  | none => exact .error ⟨.badNumber hc.peek, hc.next, rfl⟩

theorem parallelAt_readIdentifier {c c' : Cursor} (hc : c.Parallel R c')
    (hk : c.peek.kind = .identifier) :
    ParallelAt R (fun e e' => e' = e.rename r) (token Expr.readIdentifier)
      (token Expr.readIdentifier) c c' := by
  refine parallelAt_token hc ?_ Expr.advances_readIdentifier.forward
    Expr.advances_readIdentifier.forward
  have hanswers := hR _ _ hc.peek
  rw [Expr.readIdentifier_apply hk, Expr.readIdentifier_apply (hanswers.kind.trans hk),
    hanswers.name hk]
  exact .ok rfl hc.next

omit hR in
theorem parallel_refusedGroup : Parallel R (fun e e' => e' = e.rename r)
    (token Expr.refusedGroup) (token Expr.refusedGroup) :=
  fun _ _ hc => parallelAt_fail rfl rfl ⟨.unexpected .nestedTooDeeply hc.peek, hc.next, rfl⟩

theorem parallel_group {inner inner' : Traced Expr}
    (hi : Parallel R (fun e e' => e' = e.rename r) inner inner') :
    Parallel R (fun e e' => e' = e.rename r) (group inner) (group inner') := by
  have hinside : Parallel R (fun e e' => e' = e.rename r) (inside inner) (inside inner') :=
    hi.bind (fun _ _ he => (parallel_expect (fun t t' ht => (hR t t' ht).kind) (by decide)).bind
      (fun _ _ _ => parallel_pure he))
  intro c c' hc
  obtain ⟨hparse, hposition, hmoves⟩ := hinside c.next c'.next hc.next
  refine ⟨?_, fun hpos a b d d' hp hq => ?_, fun hpos => ?_⟩
  · rw [parse_group, parse_group]
    exact hparse.inGroup
  · rw [parse_group, Parse.inGroup_eq_ok_iff] at hp hq
    exact hposition (hc.position_next hpos) a b d d' hp hq
  · rw [moves_group, moves_group, hpos]
    refine .cons (.enter _ hc.peek) (List.rel_append (hmoves (hc.position_next hpos)) ?_)
    generalize (inside inner).parse c.next = x at hparse
    generalize (inside inner').parse c'.next = y at hparse
    cases hparse with
    | ok => exact .cons .leave .nil
    | error => exact .nil

theorem parallel_operand {group group' : Traced Expr}
    (hg : Parallel R (fun e e' => e' = e.rename r) group group') :
    Parallel R (fun e e' => e' = e.rename r) (operand (Rules.standard m) group)
      (operand (Rules.standard m') group') := by
  refine parallel_ofPlace (fun c c' hc => ?_)
  have hrule : (Rules.standard m').operand? c'.peek.kind = (Rules.standard m).operand? c.peek.kind :=
    congrArg (Rules.standard m).operand? (hR _ _ hc.peek).kind
  rw [hrule]
  cases h : (Rules.standard m).operand? c.peek.kind with
  | none => exact parallelAt_fail rfl rfl ⟨.unexpected .notAnOperand hc.peek, hc, rfl⟩
  | some rule =>
    cases rule with
    | name => exact parallelAt_readIdentifier hR hc ((Expr.standard_operand? .name).1 h)
    | number => exact parallelAt_readNumber hR hc ((Expr.standard_operand? .number).1 h)
    | group => exact hg c c' hc

theorem parallel_additive {primary primary' : Traced Expr}
    (hp : Parallel R (fun e e' => e' = e.rename r) primary primary') :
    Parallel R (fun e e' => e' = e.rename r) (additive (Rules.standard m) primary)
      (additive (Rules.standard m') primary') :=
  parallel_chain hR (parallel_chain hR hp)

theorem parallel_primary (room : Nat) :
    Parallel R (fun e e' => e' = e.rename r) (primary (Rules.standard m) room)
      (primary (Rules.standard m') room) := by
  induction room with
  | zero => exact parallel_operand hR parallel_refusedGroup
  | succ room ih => exact parallel_operand hR (parallel_group hR (parallel_additive hR ih))

theorem parallel_expression (room : Nat) :
    Parallel R (fun e e' => e' = e.rename r) (expression (Rules.standard m) room)
      (expression (Rules.standard m') room) :=
  parallel_additive hR (parallel_primary hR room)

section Value

variable {constant : Bool} {name name' : String}

theorem parallel_initializer (room : Nat) (hname : name' = r name) :
    Parallel R (fun d d' => d' = d.rename r) (initializer (Rules.standard m) room constant name)
      (initializer (Rules.standard m') room constant name') := by
  have hkind : ∀ t t', R t t' → t'.kind = t.kind := fun t t' ht => (hR t t' ht).kind
  refine (parallel_expect hkind (by decide)).bind (fun _ _ _ => ?_)
  refine (parallel_expression hR room).bind (fun e e' he => ?_)
  refine (parallel_expect hkind (by decide)).bind (fun _ _ _ => parallel_pure ?_)
  rw [he, hname]
  rfl

omit hR in
theorem parallel_valueless (hname : name' = r name) :
    Parallel R (fun d d' => d' = d.rename r) (token (valueless constant name))
      (token (valueless constant name')) := by
  intro c c' hc
  cases constant with
  | true => exact parallelAt_fail rfl rfl ⟨.unexpected .initializerMissing hc.peek, hc.next, rfl⟩
  | false =>
    have hforward : ∀ name, (valueless false name).Forward :=
      fun name => Parse.forward_advance.bind (fun _ => Parse.forward_pure _)
    refine parallelAt_token hc (.ok ?_ hc.next) (hforward name) (hforward name')
    rw [hname]
    rfl

theorem parallel_value (room : Nat) (hname : name' = r name) :
    Parallel R (fun d d' => d' = d.rename r) (value (Rules.standard m) room constant name)
      (value (Rules.standard m') room constant name') := by
  refine parallel_ofPlace (fun c c' hc => ?_)
  rw [(hR _ _ hc.peek).kind]
  split
  · exact parallel_valueless hname c c' hc
  · exact parallel_initializer hR room hname c c' hc

end Value

theorem parallel_declaration (room : Nat) :
    Parallel R (fun d d' => d' = d.rename r) (declaration (Rules.standard m) room)
      (declaration (Rules.standard m') room) := by
  refine parallel_advance.bind (fun k k' hk => ?_)
  rw [(hR k k' hk).kind]
  refine (parallel_expect (fun t t' ht => (hR t t' ht).kind) (by decide)).bind (fun n n' hn => ?_)
  exact parallel_value hR room ((hR n n' hn.2).name hn.1)

theorem parallel_statement (room : Nat) :
    Parallel R (fun s s' => s' = s.rename r) (statement (Rules.standard m) room)
      (statement (Rules.standard m') room) := by
  refine parallel_ofPlace (fun c c' hc => ?_)
  have hdeclares : (Rules.standard m').declares c'.peek.kind =
      (Rules.standard m).declares c.peek.kind :=
    congrArg (Rules.standard m).declares (hR _ _ hc.peek).kind
  rw [hdeclares]
  split
  · refine (parallel_declaration hR room).bind (fun d d' hd => parallel_pure ?_) c c' hc
    rw [hd]
    rfl
  · refine (parallel_expression hR room).bind (fun e e' he => parallel_pure ?_) c c' hc
    rw [he]
    rfl

theorem parallel_statements (room n : Nat) :
    Parallel R (fun ss ss' => ss' = ss.map (Statement.rename r))
      (statements (Rules.standard m) room n) (statements (Rules.standard m') room n) := by
  induction n with
  | zero => exact parallel_pure rfl
  | succ n ih =>
    refine parallel_ofPlace (fun c c' hc => ?_)
    rw [hc.atEnd_eq]
    split
    · exact parallel_pure (by rfl) c c' hc
    · refine (parallel_statement hR room).bind (fun s s' hs => ih.bind (fun ss ss' hss => ?_)) c c' hc
      subst hs hss
      exact parallel_pure rfl

end Traced

theorem Statement.parallel_all (room : Nat) {c c' : Cursor} (hc : c.Parallel R c') :
    (∃ ss, (all (Rules.standard m) room c).2 = .ok ss ∧
        (all (Rules.standard m') room c').2 = .ok (ss.map (rename r))) ∨
      ∃ f f', (all (Rules.standard m) room c).2 = .error f ∧
        (all (Rules.standard m') room c').2 = .error f' ∧ f.Parallel R f' := by
  have hagree := (Traced.parallel_statements hR room c.remaining c c' hc).parse
  rw [all, all, Traced.readAll_eq, Traced.readAll_eq, hc.remaining]
  generalize (Traced.statements (Rules.standard m) room c.remaining).parse c = x at hagree ⊢
  generalize (Traced.statements (Rules.standard m') room c.remaining).parse c' = y at hagree ⊢
  cases hagree with
  | ok value =>
    subst value
    exact Or.inl ⟨_, rfl, rfl⟩
  | error failure => exact Or.inr ⟨_, _, rfl, rfl, failure⟩

end Grammar

end LetArith
