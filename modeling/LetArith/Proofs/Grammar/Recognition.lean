import LetArith.Proofs.Grammar.Derivation
import LetArith.Proofs.Grammar.Progress
import LetArith.Reading

/-! The parsers read exactly what the grammar derives.  Each of them is described by the
tokens it passes on success, the token it stops at, and the tree it gives. -/

namespace LetArith

namespace Parse

variable {α β : Type} {p : Parse α} {q : α → Parse β}
  {R R' : List Token → Token → α → Prop} {S : α → List Token → Token → β → Prop}

/-- The parser succeeds by passing `w` up to `next` with the result `a` just if `R w next a`. -/
def Recognizes (p : Parse α) (R : List Token → Token → α → Prop) : Prop :=
  ∀ c a d, p c = .ok (a, d) ↔ ∃ w, c.Passes w d ∧ R w d.peek a

theorem Recognizes.congr (h : p.Recognizes R) (hr : ∀ w next a, R w next a ↔ R' w next a) :
    p.Recognizes R' := by
  intro c a d
  rw [h c a d]
  exact exists_congr (fun w => and_congr_right (fun _ => hr w d.peek a))

theorem Recognizes.advances (h : p.Recognizes R) (hr : ∀ w next a, R w next a → w ≠ []) :
    p.Advances := by
  intro c a d hp
  obtain ⟨w, hw, hra⟩ := (h c a d).1 hp
  exact ⟨w, hr w d.peek a hra, hw⟩

theorem recognizes_pure (a : α) :
    (pure a : Parse α).Recognizes (fun w _ b => w = [] ∧ b = a) := by
  intro c b d
  constructor
  · intro h
    cases h
    exact ⟨[], .refl c, rfl, rfl⟩
  · rintro ⟨w, hw, rfl, rfl⟩
    rw [Cursor.Passes.eq_of_nil hw]
    rfl

theorem recognizes_expect {kind : Kind} (complaint : Complaint) (hk : kind ≠ .endOfInput) :
    (expect kind complaint).Recognizes (fun w _ t => w = [t] ∧ t.kind = kind) := by
  intro c t d
  rw [expect_eq_ok_iff]
  constructor
  · rintro ⟨hkind, rfl, rfl⟩
    exact ⟨[c.peek], .next_of_kind hkind hk, rfl, hkind⟩
  · rintro ⟨w, hw, rfl, hkind⟩
    obtain ⟨hp, hn⟩ := hw.of_cons
    exact ⟨by rw [hp, hkind], hp.symm, (Cursor.Passes.eq_of_nil hn).symm⟩

theorem Recognizes.bind (hp : p.Recognizes R) (hq : ∀ a, (q a).Recognizes (S a)) :
    (p >>= q).Recognizes
      (fun w next b => ∃ u v a, w = u ++ v ∧ R u (v.headD next) a ∧ S a v next b) := by
  intro c b e
  rw [bind_eq_ok_iff]
  constructor
  · rintro ⟨a, d, h₁, h₂⟩
    obtain ⟨u, hu, hr⟩ := (hp c a d).1 h₁
    obtain ⟨v, hv, hs⟩ := (hq a d b e).1 h₂
    rw [hv.peek_eq] at hr
    exact ⟨u ++ v, hu.trans hv, u, v, a, rfl, hr, hs⟩
  · rintro ⟨w, hw, u, v, a, rfl, hr, hs⟩
    obtain ⟨d, hu, hv⟩ := hw.split
    rw [← hv.peek_eq] at hr
    exact ⟨a, d, (hp c a d).2 ⟨u, hu, hr⟩, (hq a d b e).2 ⟨v, hv, hs⟩⟩

theorem bind_congr {p' : Parse α} {c c' : Cursor} (h : p c = p' c') :
    (p >>= q) c = (p' >>= q) c' := by
  cases hp : p c with
  | error f => rw [bind_of_error hp, bind_of_error (h.symm.trans hp)]
  | ok r =>
    obtain ⟨a, d⟩ := r
    rw [bind_of_ok hp, bind_of_ok (h.symm.trans hp)]

theorem Recognizes.inGroup (hp : p.Recognizes R) : p.inGroup.Recognizes R := by
  intro c a d
  rw [inGroup_eq_ok_iff]
  exact hp c a d

end Parse

namespace Expr

variable {m : Matching} {tier : Tier} {room : Nat} {w : List Token} {next : Token} {e : Expr}

theorem Whole.ne_nil (h : Whole m tier room w next e) : w ≠ [] := h.1.ne_nil

theorem Whole.of_neutral {next' : Token} (h : Whole m tier room w next e)
    (hn : m.Neutral next') : Whole m tier room w next' e := ⟨h.1.of_neutral hn, hn tier⟩

theorem whole_primary_iff :
    Whole m .primary room w next e ↔ Derives m .primary room w next e := by simp [Whole]

theorem derives_primary_iff :
    Derives m .primary room w next e ↔
      (∃ t, t.kind = .identifier ∧ w = [t] ∧ e = identifier t.text) ∨
      (∃ t x, t.kind = .number ∧ Binary64.finiteOfText? t.text = some x ∧ w = [t] ∧
        e = number x) ∨
      (∃ k o v c, room = k + 1 ∧ o.kind = .openParen ∧ c.kind = .closeParen ∧
        w = o :: (v ++ [c]) ∧ Whole m .additive k v c e) := by
  constructor
  · generalize ht : Tier.primary = tier
    intro h
    induction h with
    | name kind => exact Or.inl ⟨_, kind, rfl, rfl⟩
    | number kind value => exact Or.inr (Or.inl ⟨_, _, kind, value, rfl, rfl⟩)
    | group opening inside ends closing _ =>
      exact Or.inr (Or.inr ⟨_, _, _, _, rfl, opening, closing, rfl, inside, ends⟩)
    | one _ _ ih =>
      subst ht
      exact ih rfl
    | more _ operator _ _ _ _ =>
      subst ht
      simp at operator
  · rintro (⟨t, kind, rfl, rfl⟩ | ⟨t, x, kind, value, rfl, rfl⟩ |
      ⟨k, o, v, c, rfl, opening, closing, rfl, inside, ends⟩)
    · exact .name kind
    · exact .number kind value
    · exact .group opening inside ends closing

section Chain

variable {operand : Parse Expr}

/-- A chain that has been read up to `c` is read on to its end. -/
theorem derives_of_chainRest (hop : operand.Recognizes (Whole m tier.tighter room))
    {left : Expr} {c d : Cursor} (hb : Derives m tier room w c.peek left)
    (h : chainRest (m.operator? tier) operand left c = .ok (e, d)) :
    ∃ v, c.Passes v d ∧ Whole m tier room (w ++ v) d.peek e := by
  have hadv : operand.Advances := hop.advances (fun _ _ _ => Whole.ne_nil)
  induction hn : c.remaining using Nat.strongRecOn generalizing c left w with
  | ind n ih =>
    cases ho : m.operator? tier c.peek with
    | none =>
      rw [chainRest_of_none ho] at h
      cases h
      exact ⟨[], .refl _, by simpa using hb, ho⟩
    | some op =>
      rw [chainRest_of_some hadv ho] at h
      obtain ⟨right, d₁, h₁, h₂⟩ := Parse.bind_eq_ok_iff.1 h
      obtain ⟨v, hv, hright⟩ := (hop _ _ _).1 h₁
      -- the operand has passed a token, so the operator before it does not close the input
      obtain ⟨t, ts, hc⟩ : ∃ t ts, c.ahead = t :: ts := by
        cases hc : c.ahead with
        | nil =>
          have hv' := hv.ahead
          rw [Cursor.ahead_next, hc] at hv'
          exact absurd (List.append_eq_nil_iff.1 hv'.symm).1 hright.ne_nil
        | cons t ts => exact ⟨t, ts, rfl⟩
      have hpeek : c.peek = t := Cursor.peek_of_ahead hc
      rw [hpeek] at hb ho
      have hpass : c.Passes (t :: v) d₁ := (Cursor.Passes.next hc).trans hv
      have hlt : d₁.remaining < n := by
        have hr := hpass.remaining_eq
        simp at hr
        omega
      obtain ⟨u, hu, hwhole⟩ := ih d₁.remaining hlt (.more hb ho hright.1 hright.2) h₂ rfl
      exact ⟨t :: v ++ u, hpass.trans hu, by simpa using hwhole⟩

/-- A chain that the grammar derives, perhaps not to its end, is read that far. -/
theorem chain_eq_chainRest (htier : tier ≠ .primary)
    (hop : operand.Recognizes (Whole m tier.tighter room)) (h : Derives m tier room w next e)
    {c d : Cursor} (hp : c.Passes w d) (hd : d.peek = next) :
    chain (m.operator? tier) operand c = chainRest (m.operator? tier) operand e d := by
  have hadv : operand.Advances := hop.advances (fun _ _ _ => Whole.ne_nil)
  induction h generalizing c d with
  | name _ => exact absurd rfl htier
  | number _ _ => exact absurd rfl htier
  | group _ _ _ _ _ => exact absurd rfl htier
  | one first ends _ =>
    subst hd
    rw [chain_eq]
    exact Parse.bind_of_ok ((hop _ _ _).2 ⟨_, hp, first, ends⟩)
  | more before operator last ends ih _ =>
    subst hd
    obtain ⟨d₁, hw, hv⟩ := hp.split
    obtain ⟨hpeek, hnext⟩ := hv.of_cons
    rw [ih htier hop hw hpeek, chainRest_of_some hadv (by rw [hpeek]; exact operator)]
    exact Parse.bind_of_ok ((hop _ _ _).2 ⟨_, hnext, last, ends⟩)

theorem recognizes_chain (htier : tier ≠ .primary)
    (hop : operand.Recognizes (Whole m tier.tighter room)) :
    (chain (m.operator? tier) operand).Recognizes (Whole m tier room) := by
  intro c e d
  constructor
  · intro h
    rw [chain_eq] at h
    obtain ⟨first, d₁, h₁, h₂⟩ := Parse.bind_eq_ok_iff.1 h
    obtain ⟨u, hu, hfirst, hends⟩ := (hop _ _ _).1 h₁
    obtain ⟨v, hv, hwhole⟩ := derives_of_chainRest hop (.one hfirst hends) h₂
    exact ⟨u ++ v, hu.trans hv, hwhole⟩
  · rintro ⟨w, hw, hwhole⟩
    rw [chain_eq_chainRest htier hop hwhole.1 hw rfl, chainRest_of_none hwhole.2]

end Chain

def opening : OperandRule → Kind
  | .name => .identifier
  | .number => .number
  | .group => .openParen

theorem standard_operand? (rule : OperandRule) {k : Kind} :
    (Rules.standard m).operand? k = some rule ↔ k = opening rule := by
  cases rule <;> cases k <;> simp [Rules.standard, opening]

theorem readNumber_apply {c : Cursor} (hk : c.peek.kind = .number) :
    readNumber c =
      match Binary64.finiteOfText? c.peek.text with
      | some x => .ok (number x, c.next)
      | none => .error ⟨.badNumber c.peek, c.next, 0⟩ := by
  have hexp : Parse.expect .number .notAnOperand c = .ok (c.peek, c.next) :=
    Parse.expect_eq_ok_iff.2 ⟨hk, rfl, rfl⟩
  rw [readNumber, Parse.bind_of_ok hexp]
  cases Binary64.finiteOfText? c.peek.text <;> rfl

theorem readIdentifier_apply {c : Cursor} (hk : c.peek.kind = .identifier) :
    readIdentifier c = .ok (identifier c.peek.text, c.next) :=
  Parse.bind_of_ok (Parse.expect_eq_ok_iff.2 ⟨hk, rfl, rfl⟩)

/-- An operand is recognized if the groups are that its opening token may begin. -/
theorem recognizes_operand {group : Parse Expr}
    (hg : ∀ c, c.peek.kind = .openParen → ∀ e d,
      group c = .ok (e, d) ↔ ∃ w, c.Passes w d ∧ Derives m .primary room w d.peek e) :
    (operand (Rules.standard m) group).Recognizes (Derives m .primary room) := by
  intro c e d
  rw [operand_apply]
  constructor
  · intro h
    cases hr : (Rules.standard m).operand? c.peek.kind with
    | none => rw [hr] at h; cases h
    | some rule =>
      rw [hr] at h
      cases rule with
      | name =>
        have hk := (standard_operand? .name).1 hr
        rw [show readIdentifier c = _ from readIdentifier_apply hk] at h
        cases h
        exact ⟨_, .next_of_kind hk (by decide), .name hk⟩
      | number =>
        have hk := (standard_operand? .number).1 hr
        replace h : readNumber c = .ok (e, d) := h
        rw [readNumber_apply hk] at h
        cases hv : Binary64.finiteOfText? c.peek.text with
        | none => rw [hv] at h; cases h
        | some x =>
          rw [hv] at h
          cases h
          exact ⟨_, .next_of_kind hk (by decide), .number hk hv⟩
      | group => exact (hg c ((standard_operand? .group).1 hr) e d).1 h
  · rintro ⟨w, hw, hd⟩
    rcases derives_primary_iff.1 hd with ⟨t, hk, rfl, rfl⟩ | ⟨t, x, hk, hv, rfl, rfl⟩ |
      ⟨k, o, v, s, rfl, hk, _, rfl, _⟩
    · obtain ⟨hp, hn⟩ := hw.of_cons
      rw [← hp] at hk ⊢
      rw [(standard_operand? .name).2 hk, ← Cursor.Passes.eq_of_nil hn]
      exact readIdentifier_apply hk
    · obtain ⟨hp, hn⟩ := hw.of_cons
      rw [← hp] at hk hv
      rw [(standard_operand? .number).2 hk, ← Cursor.Passes.eq_of_nil hn]
      show readNumber c = _
      rw [readNumber_apply hk, hv]
    · obtain ⟨hp, _⟩ := hw.of_cons
      rw [← hp] at hk
      rw [(standard_operand? .group).2 hk]
      exact (hg c hk e d).2 ⟨_, hw, hd⟩

theorem recognizes_refusedGroup {c : Cursor} (hk : c.peek.kind = .openParen) {d : Cursor} :
    refusedGroup c = .ok (e, d) ↔ ∃ w, c.Passes w d ∧ Derives m .primary 0 w d.peek e := by
  constructor
  · intro h
    cases h
  · rintro ⟨w, hw, hd⟩
    rcases derives_primary_iff.1 hd with ⟨t, hk', rfl, _⟩ | ⟨t, _, hk', _, rfl, _⟩ |
      ⟨k, _, _, _, h0, _⟩
    · rw [hw.of_cons.1, hk'] at hk
      cases hk
    · rw [hw.of_cons.1, hk'] at hk
      cases hk
    · cases h0

theorem groupOf_apply (inner : Parse Expr) (c : Cursor) :
    groupOf inner c =
      (inner >>= fun e => Parse.expect .closeParen .groupNotClosed >>= fun _ => pure e).inGroup
        c.next := Parse.bind_of_ok (Parse.advance_apply c)

theorem recognizes_groupOf {inner : Parse Expr}
    (hi : inner.Recognizes (Whole m .additive room)) {c : Cursor}
    (hk : c.peek.kind = .openParen) {d : Cursor} :
    groupOf inner c = .ok (e, d) ↔
      ∃ w, c.Passes w d ∧ Derives m .primary (room + 1) w d.peek e := by
  have hbody := (hi.bind (fun e => (Parse.recognizes_expect .groupNotClosed
    (by decide : Kind.closeParen ≠ .endOfInput)).bind (fun _ => Parse.recognizes_pure e))).inGroup
  rw [groupOf_apply, hbody]
  constructor
  · rintro ⟨_, hw, v, _, e, rfl, hin, _, _, s, rfl, ⟨rfl, hs⟩, rfl, rfl⟩
    refine ⟨_, (Cursor.Passes.next_of_kind hk (by decide)).trans hw, ?_⟩
    exact .group hk hin.1 hin.2 hs
  · rintro ⟨w, hw, hd⟩
    rcases derives_primary_iff.1 hd with ⟨t, hk', rfl, _⟩ | ⟨t, _, hk', _, rfl, _⟩ |
      ⟨k, o, v, s, hroom, _, hs, rfl, hin⟩
    · rw [hw.of_cons.1, hk'] at hk
      cases hk
    · rw [hw.of_cons.1, hk'] at hk
      cases hk
    · cases hroom
      exact ⟨_, hw.of_cons.2, v, [s], e, rfl, hin, [s], [], s, rfl, ⟨rfl, hs⟩, rfl, rfl⟩

theorem recognizes_multiplicative {primary : Parse Expr}
    (hp : primary.Recognizes (Derives m .primary room)) :
    (multiplicative (Rules.standard m) primary).Recognizes (Whole m .multiplicative room) :=
  recognizes_chain (by decide) (hp.congr (fun _ _ _ => whole_primary_iff.symm))

theorem recognizes_additive {primary : Parse Expr}
    (hp : primary.Recognizes (Derives m .primary room)) :
    (additive (Rules.standard m) primary).Recognizes (Whole m .additive room) :=
  recognizes_chain (by decide) (recognizes_multiplicative hp)

theorem recognizes_primary (m : Matching) (room : Nat) :
    (primary (Rules.standard m) room).Recognizes (Derives m .primary room) := by
  induction room with
  | zero => exact recognizes_operand (fun c hk e d => recognizes_refusedGroup hk)
  | succ room ih =>
    exact recognizes_operand (fun c hk e d => recognizes_groupOf (recognizes_additive ih) hk)

theorem recognizes_read (m : Matching) (room : Nat) :
    (read (Rules.standard m) room).Recognizes (Whole m .additive room) :=
  recognizes_additive (recognizes_primary m room)

end Expr

namespace Declaration

variable {m : Matching} {room : Nat} {constant : Bool} {name : String}

/-- The initializer of a declaration, from the equals sign to the semicolon. -/
def readInitializer (rules : Rules) (room : Nat) (constant : Bool) (name : String) :
    Parse Declaration := do
  let _ ← Parse.expect .equals .equalsMissing
  let e ← Expr.read rules room
  let _ ← Parse.expect .semicolon .semicolonMissing
  pure ⟨constant, name, some e⟩

theorem readValue_apply (rules : Rules) (room : Nat) (constant : Bool) (name : String)
    (c : Cursor) :
    readValue rules room constant name c =
      if c.peek.kind = .semicolon then
        if constant then .error ⟨.unexpected c.peek .initializerMissing, c.next, 0⟩
        else .ok (⟨false, name, none⟩, c.next)
      else readInitializer rules room constant name c := by
  rw [readValue, Parse.bind_of_ok (Parse.place_apply c)]
  split
  · rw [Parse.bind_of_ok (Parse.advance_apply c)]
    split <;> rfl
  · rfl

theorem recognizes_readInitializer (m : Matching) (room : Nat) (constant : Bool) (name : String) :
    (readInitializer (Rules.standard m) room constant name).Recognizes (fun w _ d =>
      ∃ q v s e, q.kind = .equals ∧ s.kind = .semicolon ∧ w = q :: (v ++ [s]) ∧
        Expr.Whole m .additive room v s e ∧ d = ⟨constant, name, some e⟩) := by
  have h := (Parse.recognizes_expect .equalsMissing (by decide : Kind.equals ≠ .endOfInput)).bind
    (fun _ => (Expr.recognizes_read m room).bind (fun e =>
      (Parse.recognizes_expect .semicolonMissing (by decide : Kind.semicolon ≠ .endOfInput)).bind
        (fun _ => Parse.recognizes_pure (⟨constant, name, some e⟩ : Declaration))))
  refine h.congr (fun w next d => ?_)
  constructor
  · rintro ⟨_, _, q, rfl, ⟨rfl, hq⟩, v, _, e, rfl, he, _, _, s, rfl, ⟨rfl, hs⟩, rfl, rfl⟩
    exact ⟨q, v, s, e, hq, hs, rfl, he, rfl⟩
  · rintro ⟨q, v, s, e, hq, hs, rfl, he, rfl⟩
    exact ⟨[q], v ++ [s], q, rfl, ⟨rfl, hq⟩, v, [s], e, rfl, he, [s], [], s, rfl, ⟨rfl, hs⟩,
      rfl, rfl⟩

theorem recognizes_readValue (m : Matching) (room : Nat) (constant : Bool) (name : String) :
    (readValue (Rules.standard m) room constant name).Recognizes (fun w _ d =>
      (∃ s, s.kind = .semicolon ∧ w = [s] ∧ constant = false ∧ d = ⟨false, name, none⟩) ∨
      ∃ q v s e, q.kind = .equals ∧ s.kind = .semicolon ∧ w = q :: (v ++ [s]) ∧
        Expr.Whole m .additive room v s e ∧ d = ⟨constant, name, some e⟩) := by
  intro c a d
  rw [readValue_apply]
  by_cases hk : c.peek.kind = .semicolon
  · rw [if_pos hk]
    constructor
    · intro h
      cases constant with
      | true => cases h
      | false =>
        cases h
        exact ⟨_, .next_of_kind hk (by decide), Or.inl ⟨_, hk, rfl, rfl, rfl⟩⟩
    · rintro ⟨w, hw, ⟨s, _, rfl, rfl, rfl⟩ | ⟨q, v, s, e, hq, _, rfl, _⟩⟩
      · rw [Cursor.Passes.eq_of_nil hw.of_cons.2]
        rfl
      · rw [hw.of_cons.1, hq] at hk
        cases hk
  · rw [if_neg hk, recognizes_readInitializer m room constant name]
    refine exists_congr (fun w => and_congr_right (fun hw => ?_))
    constructor
    · exact Or.inr
    · rintro (⟨s, hs, rfl, _⟩ | h)
      · exact absurd ((congrArg Token.kind hw.of_cons.1).trans hs) hk
      · exact h

def readNamed (rules : Rules) (room : Nat) (constant : Bool) : Parse Declaration := do
  let name ← Parse.expect .identifier .nameMissing
  readValue rules room constant name.text

theorem read_apply (rules : Rules) (room : Nat) (c : Cursor) :
    read rules room c = readNamed rules room (c.peek.kind == .constKeyword) c.next :=
  Parse.bind_of_ok (Parse.advance_apply c)

theorem recognizes_readNamed (m : Matching) (room : Nat) (constant : Bool) :
    (readNamed (Rules.standard m) room constant).Recognizes (fun w _ d =>
      (∃ n s, n.kind = .identifier ∧ s.kind = .semicolon ∧ w = [n, s] ∧ constant = false ∧
        d = ⟨false, n.text, none⟩) ∨
      ∃ n q v s e, n.kind = .identifier ∧ q.kind = .equals ∧ s.kind = .semicolon ∧
        w = n :: q :: (v ++ [s]) ∧ Expr.Whole m .additive room v s e ∧
        d = ⟨constant, n.text, some e⟩) := by
  have h := (Parse.recognizes_expect .nameMissing (by decide : Kind.identifier ≠ .endOfInput)).bind
    (fun n => recognizes_readValue m room constant n.text)
  refine h.congr (fun w next d => ?_)
  constructor
  · rintro ⟨_, _, n, rfl, ⟨rfl, hn⟩, ⟨s, hs, rfl, hc, rfl⟩ | ⟨q, v, s, e, hq, hs, rfl, he, rfl⟩⟩
    · exact Or.inl ⟨n, s, hn, hs, rfl, hc, rfl⟩
    · exact Or.inr ⟨n, q, v, s, e, hn, hq, hs, rfl, he, rfl⟩
  · rintro (⟨n, s, hn, hs, rfl, hc, rfl⟩ | ⟨n, q, v, s, e, hn, hq, hs, rfl, he, rfl⟩)
    · exact ⟨[n], [s], n, rfl, ⟨rfl, hn⟩, Or.inl ⟨s, hs, rfl, hc, rfl⟩⟩
    · exact ⟨[n], q :: (v ++ [s]), n, rfl, ⟨rfl, hn⟩, Or.inr ⟨q, v, s, e, hq, hs, rfl, he, rfl⟩⟩

end Declaration

namespace Statement

variable {m : Matching} {room : Nat} {w : List Token} {next : Token} {s : Statement}

theorem standard_declares {k : Kind} :
    (Rules.standard m).declares k = true ↔ k = .letKeyword ∨ k = .constKeyword := by
  cases k <;> simp [Rules.standard]

theorem derives_expression_iff {t : Token} {ts : List Token}
    (hk : ¬ (t.kind = .letKeyword ∨ t.kind = .constKeyword)) :
    Derives m room (t :: ts) next s ↔
      ∃ e, Expr.Whole m .additive room (t :: ts) next e ∧ s = expression e := by
  constructor
  · intro h
    cases h with
    | bare keyword _ _ => exact absurd (Or.inl keyword) hk
    | valued keyword _ _ _ _ => exact absurd keyword hk
    | expression value => exact ⟨_, value, rfl⟩
  · rintro ⟨e, value, rfl⟩
    exact .expression value

theorem recognizes_read (m : Matching) (room : Nat) :
    (read (Rules.standard m) room).Recognizes (Derives m room) := by
  intro c s d
  rw [read_apply]
  by_cases hk : (Rules.standard m).declares c.peek.kind = true
  · rw [if_pos hk]
    have hkind := standard_declares.1 hk
    have hopen : c.peek.isEnd = false := by
      rcases hkind with h | h <;> exact Cursor.isEnd_of_kind h (by decide)
    have hnext := Cursor.Passes.next (Cursor.ahead_of_isEnd_false hopen)
    have hnamed := Declaration.recognizes_readNamed m room (c.peek.kind == .constKeyword)
    rw [Parse.bind_eq_ok_iff]
    constructor
    · rintro ⟨decl, d', h, hs⟩
      cases hs
      rw [Declaration.read_apply, hnamed] at h
      rcases h with ⟨_, hw, ⟨n, s, hn, hs, rfl, hc, rfl⟩ |
        ⟨n, q, v, s, e, hn, hq, hs, rfl, he, rfl⟩⟩
      · have hlet : c.peek.kind = .letKeyword :=
          hkind.resolve_right (fun h => by simp [h] at hc)
        exact ⟨_, hnext.trans hw, .bare hlet hn hs⟩
      · exact ⟨_, hnext.trans hw, .valued hkind hn hq he hs⟩
    · rintro ⟨w, hw, hd⟩
      cases hd with
      | @bare k n s next keyword name semicolon =>
        obtain ⟨hp, hw'⟩ := hw.of_cons
        refine ⟨_, d, ?_, rfl⟩
        rw [Declaration.read_apply, hnamed]
        exact ⟨_, hw', Or.inl ⟨n, s, name, semicolon, rfl, by simp [hp, keyword], rfl⟩⟩
      | @valued k n q s next v e keyword name equals value semicolon =>
        obtain ⟨hp, hw'⟩ := hw.of_cons
        refine ⟨_, d, ?_, rfl⟩
        rw [Declaration.read_apply, hnamed, hp]
        exact ⟨_, hw', Or.inr ⟨n, q, v, s, e, name, equals, semicolon, rfl, value, rfl⟩⟩
      | expression value =>
        obtain ⟨t, ts, rfl⟩ := List.exists_cons_of_ne_nil value.ne_nil
        have h := value.1.head_kind
        rw [← hw.of_cons.1] at h
        rcases hkind with hk' | hk' <;> rcases h with h | h | h <;> cases hk'.symm.trans h
  · rw [if_neg hk, Parse.bind_eq_ok_iff]
    have hkind := fun h => hk (standard_declares.2 h)
    constructor
    · rintro ⟨e, d', h, hs⟩
      cases hs
      obtain ⟨w, hw, he⟩ := (Expr.recognizes_read m room c e d).1 h
      exact ⟨w, hw, .expression he⟩
    · rintro ⟨w, hw, hd⟩
      obtain ⟨t, ts, rfl⟩ := List.exists_cons_of_ne_nil hd.ne_nil
      rw [hw.of_cons.1] at hkind
      obtain ⟨e, he, rfl⟩ := (derives_expression_iff hkind).1 hd
      exact ⟨e, d, (Expr.recognizes_read m room c e d).2 ⟨_, hw, he⟩, rfl⟩

end Statement

namespace Program

variable {m : Matching} {room : Nat} {ss : List Statement}

/-- Statements are read where the grammar derives them, and the others after them. -/
theorem all_of_derives {w v : List Token} {c : Cursor} (h : Derives m room w (v.headD c.stop) ss)
    (hc : c.ahead = w ++ v) :
    ∃ d, c.Passes w d ∧ (Statement.all (Rules.standard m) room c).2 =
      (Statement.all (Rules.standard m) room d).2.map (ss ++ ·) := by
  generalize hnext : v.headD c.stop = next at h
  induction h generalizing c with
  | nil =>
    refine ⟨c, .refl c, ?_⟩
    cases (Statement.all (Rules.standard m) room c).2 <;> rfl
  | @cons u w next s ss first _ ih =>
    rw [List.append_assoc] at hc
    have hopen : ∀ t ∈ u, t.isEnd = false :=
      fun t ht => c.ahead_open t (by rw [hc]; exact List.mem_append_left _ ht)
    obtain ⟨d, hp, _⟩ := Cursor.exists_passes (c := c) (w := u) (v := (w ++ v) ++ [c.stop])
      (by simp [Cursor.rest, hc]) hopen
    have hd : d.ahead = w ++ v := Cursor.ahead_of_passes hp hc
    have hpeek : d.peek = w.headD next := by
      rw [Cursor.peek, hd, hp.stop, ← hnext]
      cases w <;> rfl
    rw [← hpeek] at first
    have hr := (Statement.recognizes_read m room c s d).2 ⟨u, hp, first⟩
    obtain ⟨e, hq, hall⟩ := ih hd (by rw [hp.stop, hnext])
    refine ⟨e, hp.trans hq, ?_⟩
    rw [Statement.all_of_ok hr, hall]
    cases (Statement.all (Rules.standard m) room e).2 <;> rfl

/-- The statements read from a place are those the grammar derives from the tokens left. -/
theorem all_eq_ok_iff {c : Cursor} :
    (Statement.all (Rules.standard m) room c).2 = .ok ss ↔
      Derives m room c.ahead c.stop ss := by
  constructor
  · intro h
    induction hn : c.remaining using Nat.strongRecOn generalizing c ss with
    | ind n ih =>
      by_cases hc : c.ahead = []
      · rw [Statement.all_of_nil hc] at h
        cases h
        rw [hc]
        exact .nil
      · cases hr : Statement.read (Rules.standard m) room c with
        | error f =>
          rw [Statement.all_of_error hc hr] at h
          cases h
        | ok r =>
          obtain ⟨s, d⟩ := r
          have hlt := Parse.remaining_lt (Statement.advances_read _ _) hr
          rw [Statement.all_of_ok hr] at h
          cases hrest : (Statement.all (Rules.standard m) room d).2 with
          | error f =>
            rw [hrest] at h
            cases h
          | ok rest =>
            rw [hrest] at h
            cases h
            obtain ⟨w, hw, hs⟩ := (Statement.recognizes_read m room c s d).1 hr
            have hd := ih d.remaining (by omega) hrest rfl
            rw [hw.ahead, ← hw.stop]
            exact .cons hs hd
  · intro h
    obtain ⟨d, hp, hall⟩ := all_of_derives (v := []) (c := c) h (List.append_nil _).symm
    have hd : d.ahead = [] := by simpa using hp.ahead
    rw [hall, Statement.all_of_nil hd]
    exact congrArg Except.ok (List.append_nil ss)

theorem ofTokens_eq (config : Config) (ts : List Token) :
    ofTokens config ts =
      match (Statement.all (Rules.standard config.matching) config.maxDepth
        (Cursor.ofTokens ts)).2 with
      | .ok body => .ok ⟨body⟩
      | .error f => .error f.diagnostic := rfl

theorem ofTokens_eq_ok_iff_cursor {config : Config} {ts : List Token} {p : Program} :
    ofTokens config ts = .ok p ↔
      Derives config.matching config.maxDepth (Cursor.ofTokens ts).ahead (Cursor.ofTokens ts).stop
        p.body := by
  rw [← all_eq_ok_iff, ofTokens_eq]
  cases h : (Statement.all (Rules.standard config.matching) config.maxDepth
    (Cursor.ofTokens ts)).2 with
  | ok body =>
    constructor
    · intro h
      cases h
      rfl
    · intro h
      cases h
      rfl
  | error f => simp

/-- The tokens before the first that closes the input are read as a program just if they are,
one after the other, the statements of its body. -/
theorem ofTokens_eq_ok_iff (config : Config) (ts : List Token) (p : Program) :
    ofTokens config ts = .ok p ↔
      Derives config.matching config.maxDepth (ts.takeWhile (fun t => !t.isEnd))
        ((ts.dropWhile (fun t => !t.isEnd)).headD (Cursor.closing ts)) p.body := by
  rw [← Cursor.ahead_ofTokens, ← Cursor.stop_ofTokens]
  exact ofTokens_eq_ok_iff_cursor

end Program
end LetArith
