import LetArith.Grammar.Statement
import LetArith.Proofs.Cursor.Passing

/-! Parsers that pass tokens.  A chain is bounded by the number of tokens left; since every
operand passes one, the bound is never met and the chain obeys the equations it would have
without it. -/

namespace LetArith

namespace Parse

variable {α β : Type} {p : Parse α} {q : α → Parse β}

/-- Every success passes some tokens, perhaps none. -/
def Forward (p : Parse α) : Prop :=
  ∀ c a d, p c = .ok (a, d) → ∃ w, c.Passes w d

/-- Every success passes at least one token. -/
def Advances (p : Parse α) : Prop :=
  ∀ c a d, p c = .ok (a, d) → ∃ w, w ≠ [] ∧ c.Passes w d

theorem Advances.forward (h : Advances p) : Forward p := by
  intro c a d hp
  obtain ⟨w, _, hw⟩ := h c a d hp
  exact ⟨w, hw⟩

theorem forward_pure (a : α) : Forward (pure a : Parse α) := by
  intro c b d h
  cases h
  exact ⟨[], .refl c⟩

theorem forward_advance : Forward advance := by
  intro c t d h
  cases h
  cases ha : c.ahead with
  | nil => rw [Cursor.next_of_nil ha]; exact ⟨[], .refl c⟩
  | cons u us => exact ⟨[u], .next ha⟩

theorem advances_expect {kind : Kind} {complaint : Complaint} (hk : kind ≠ .endOfInput) :
    Advances (expect kind complaint) := by
  intro c t d h
  obtain ⟨hkind, _, rfl⟩ := expect_eq_ok_iff.1 h
  exact ⟨[c.peek], by simp, .next_of_kind hkind hk⟩

theorem Forward.bind (hp : Forward p) (hq : ∀ a, Forward (q a)) : Forward (p >>= q) := by
  intro c b e h
  obtain ⟨a, d, h₁, h₂⟩ := bind_eq_ok_iff.1 h
  obtain ⟨u, hu⟩ := hp c a d h₁
  obtain ⟨v, hv⟩ := hq a d b e h₂
  exact ⟨u ++ v, hu.trans hv⟩

theorem Advances.bind (hp : Advances p) (hq : ∀ a, Forward (q a)) : Advances (p >>= q) := by
  intro c b e h
  obtain ⟨a, d, h₁, h₂⟩ := bind_eq_ok_iff.1 h
  obtain ⟨u, hne, hu⟩ := hp c a d h₁
  obtain ⟨v, hv⟩ := hq a d b e h₂
  exact ⟨u ++ v, by simp [hne], hu.trans hv⟩

theorem Forward.bind_advances (hp : Forward p) (hq : ∀ a, Advances (q a)) :
    Advances (p >>= q) := by
  intro c b e h
  obtain ⟨a, d, h₁, h₂⟩ := bind_eq_ok_iff.1 h
  obtain ⟨u, hu⟩ := hp c a d h₁
  obtain ⟨v, hne, hv⟩ := hq a d b e h₂
  exact ⟨u ++ v, by simp [hne], hu.trans hv⟩

theorem Advances.inGroup (hp : Advances p) : Advances p.inGroup :=
  fun c a d h => hp c a d (inGroup_eq_ok_iff.1 h)

theorem remaining_lt (hp : Advances p) {c d : Cursor} {a : α} (h : p c = .ok (a, d)) :
    d.remaining < c.remaining := by
  obtain ⟨w, hne, hw⟩ := hp c a d h
  have hl := List.length_pos_iff.2 hne
  have hr := hw.remaining_eq
  omega

end Parse

namespace Expr

variable {operator? : Token → Option Operator} {operand : Parse Expr}

/-- What follows the operand `left` of a chain, with the bound that `chain` gives it. -/
def chainRest (operator? : Token → Option Operator) (operand : Parse Expr) (left : Expr) :
    Parse Expr :=
  fun c => chainFrom operator? operand (c.remaining + 1) left c

theorem chain_eq (operator? : Token → Option Operator) (operand : Parse Expr) :
    chain operator? operand = operand >>= chainRest operator? operand := rfl

theorem chainFrom_succ_of_none {left : Expr} {c : Cursor} {n : Nat}
    (h : operator? c.peek = none) :
    chainFrom operator? operand (n + 1) left c = .ok (left, c) := by
  rw [chainFrom, Parse.bind_of_ok (Parse.place_apply c), h]
  rfl

theorem chainFrom_succ_of_some {left : Expr} {c : Cursor} {n : Nat} {op : Operator}
    (h : operator? c.peek = some op) :
    chainFrom operator? operand (n + 1) left c =
      (operand >>= fun right => chainFrom operator? operand n (binary left op right)) c.next := by
  rw [chainFrom, Parse.bind_of_ok (Parse.place_apply c), h]
  exact Parse.bind_of_ok (Parse.advance_apply c)

/-- Two bounds above the number of tokens left are as good as each other. -/
theorem chainFrom_bound (hop : operand.Advances) {n m : Nat} {left : Expr} {c : Cursor}
    (hn : c.remaining < n) (hm : c.remaining < m) :
    chainFrom operator? operand n left c = chainFrom operator? operand m left c := by
  induction n generalizing m left c with
  | zero => omega
  | succ n ih =>
    obtain ⟨m, rfl⟩ : ∃ k, m = k + 1 := ⟨m - 1, by omega⟩
    cases ho : operator? c.peek with
    | none => rw [chainFrom_succ_of_none ho, chainFrom_succ_of_none ho]
    | some op =>
      rw [chainFrom_succ_of_some ho, chainFrom_succ_of_some ho]
      cases hr : operand c.next with
      | error f => rw [Parse.bind_of_error hr, Parse.bind_of_error hr]
      | ok r =>
        obtain ⟨right, d⟩ := r
        have hlt := Parse.remaining_lt hop hr
        have hle : c.next.remaining ≤ c.remaining := by
          simp [Cursor.remaining, Cursor.ahead_next]
        rw [Parse.bind_of_ok hr, Parse.bind_of_ok hr]
        exact ih (by omega) (by omega)

theorem chainRest_of_none {left : Expr} {c : Cursor} (h : operator? c.peek = none) :
    chainRest operator? operand left c = .ok (left, c) := chainFrom_succ_of_none h

theorem chainRest_of_some (hop : operand.Advances) {left : Expr} {c : Cursor} {op : Operator}
    (h : operator? c.peek = some op) :
    chainRest operator? operand left c =
      (operand >>= fun right => chainRest operator? operand (binary left op right)) c.next := by
  rw [chainRest, chainFrom_succ_of_some h]
  cases hr : operand c.next with
  | error f => rw [Parse.bind_of_error hr, Parse.bind_of_error hr]
  | ok r =>
    obtain ⟨right, d⟩ := r
    have hlt := Parse.remaining_lt hop hr
    have hle : c.next.remaining ≤ c.remaining := by simp [Cursor.remaining, Cursor.ahead_next]
    rw [Parse.bind_of_ok hr, Parse.bind_of_ok hr]
    exact chainFrom_bound hop (by omega) (by omega)

theorem forward_chainFrom (hop : operand.Advances) (n : Nat) (left : Expr) :
    (chainFrom operator? operand n left).Forward := by
  induction n generalizing left with
  | zero => exact Parse.forward_pure left
  | succ n ih =>
    intro c e d h
    cases ho : operator? c.peek with
    | none =>
      rw [chainFrom_succ_of_none ho] at h
      cases h
      exact ⟨[], .refl c⟩
    | some op =>
      rw [chainFrom_succ_of_some ho] at h
      obtain ⟨w, hw⟩ := (hop.bind (fun right => ih (binary left op right))).forward _ _ _ h
      obtain ⟨v, hv⟩ := Parse.forward_advance c _ _ (Parse.advance_apply c)
      exact ⟨v ++ w, hv.trans hw⟩

theorem advances_chain (hop : operand.Advances) : (chain operator? operand).Advances :=
  hop.bind (fun left c _ _ h => forward_chainFrom hop (c.remaining + 1) left c _ _ h)

theorem advances_readIdentifier : readIdentifier.Advances :=
  (Parse.advances_expect (by decide)).bind (fun t => Parse.forward_pure (identifier t.text))

theorem advances_readNumber : readNumber.Advances := by
  refine (Parse.advances_expect (by decide)).bind (fun t => ?_)
  cases Binary64.finiteOfText? t.text with
  | none => intro c a d h; cases h
  | some x => exact Parse.forward_pure (number x)

theorem advances_groupOf {inner : Parse Expr} (h : inner.Advances) :
    (groupOf inner).Advances := by
  refine Parse.forward_advance.bind_advances (fun _ => Parse.Advances.inGroup (h.bind (fun e => ?_)))
  exact ((Parse.advances_expect (by decide)).bind (fun _ => Parse.forward_pure e)).forward

theorem operand_apply (rules : Rules) (group : Parse Expr) (c : Cursor) :
    Expr.operand rules group c =
      match rules.operand? c.peek.kind with
      | some .name => readIdentifier c
      | some .number => readNumber c
      | some .group => group c
      | none => .error ⟨.unexpected c.peek .notAnOperand, c, 0⟩ := by
  rw [Expr.operand, Parse.bind_of_ok (Parse.place_apply c)]
  cases rules.operand? c.peek.kind with
  | none => rfl
  | some rule => cases rule <;> rfl

theorem advances_operand {rules : Rules} {group : Parse Expr} (h : group.Advances) :
    (Expr.operand rules group).Advances := by
  intro c a d hc
  rw [operand_apply] at hc
  split at hc
  · exact advances_readIdentifier c a d hc
  · exact advances_readNumber c a d hc
  · exact h c a d hc
  · cases hc

theorem advances_refusedGroup : refusedGroup.Advances := by
  intro c a d h
  cases h

/-- No operand is read without passing a token, whatever the rules say. -/
theorem advances_primary (rules : Rules) (room : Nat) : (primary rules room).Advances := by
  induction room with
  | zero => exact advances_operand advances_refusedGroup
  | succ room ih => exact advances_operand (advances_groupOf (advances_chain (advances_chain ih)))

theorem advances_read (rules : Rules) (room : Nat) : (read rules room).Advances :=
  advances_chain (advances_chain (advances_primary rules room))

end Expr

namespace Declaration

theorem forward_readValue (rules : Rules) (room : Nat) (constant : Bool) (name : String) :
    (readValue rules room constant name).Forward := by
  intro c a d h
  rw [readValue, Parse.bind_of_ok (Parse.place_apply c)] at h
  by_cases hk : c.peek.kind = .semicolon
  · rw [if_pos hk] at h
    refine Parse.Forward.bind Parse.forward_advance (fun t => ?_) c a d h
    cases constant with
    | true => intro c a d h; cases h
    | false => exact Parse.forward_pure _
  · rw [if_neg hk] at h
    exact ((Parse.advances_expect (by decide)).bind (fun _ =>
      ((Expr.advances_read rules room).bind (fun e =>
        ((Parse.advances_expect (by decide)).bind (fun _ =>
          Parse.forward_pure _)).forward)).forward)).forward c a d h

theorem advances_read (rules : Rules) (room : Nat) : (read rules room).Advances :=
  Parse.forward_advance.bind_advances (fun keyword =>
    (Parse.advances_expect (by decide)).bind (fun name =>
      forward_readValue rules room (keyword.kind == .constKeyword) name.text))

end Declaration

namespace Statement

theorem read_apply (rules : Rules) (room : Nat) (c : Cursor) :
    read rules room c =
      if rules.declares c.peek.kind then
        (Declaration.read rules room >>= fun d => pure (declaration d)) c
      else (Expr.read rules room >>= fun e => pure (expression e)) c := by
  rw [read, Parse.bind_of_ok (Parse.place_apply c)]
  split <;> rfl

theorem advances_read (rules : Rules) (room : Nat) : (read rules room).Advances := by
  intro c s d h
  rw [read_apply] at h
  split at h
  · exact (Declaration.advances_read rules room).bind
      (fun d => Parse.forward_pure (declaration d)) c s d h
  · exact (Expr.advances_read rules room).bind
      (fun e => Parse.forward_pure (expression e)) c s d h

/-- All statements that follow a place, with the bound that a program gives them. -/
def all (rules : Rules) (room : Nat) (c : Cursor) : List Kind × Except Failure (List Statement) :=
  readAll rules room c.remaining c

/-- Bounds that count the tokens left, or more, are as good as each other. -/
theorem readAll_bound (rules : Rules) (room : Nat) {n m : Nat} {c : Cursor}
    (hn : c.remaining ≤ n) (hm : c.remaining ≤ m) :
    readAll rules room n c = readAll rules room m c := by
  induction n generalizing m c with
  | zero =>
    have hnil : c.ahead = [] := List.length_eq_zero_iff.1 (Nat.le_zero.1 hn)
    cases m with
    | zero => rfl
    | succ m => rw [readAll, readAll, if_pos ((Cursor.atEnd_iff c).2 hnil)]
  | succ n ih =>
    by_cases he : c.atEnd = true
    · cases m with
      | zero => rw [readAll, readAll, if_pos he]
      | succ m => rw [readAll, readAll, if_pos he, if_pos he]
    · have hpos : c.remaining ≠ 0 := fun h0 =>
        he ((Cursor.atEnd_iff c).2 (List.length_eq_zero_iff.1 h0))
      obtain ⟨m, rfl⟩ : ∃ k, m = k + 1 := ⟨m - 1, by omega⟩
      rw [readAll, readAll, if_neg he, if_neg he]
      cases hr : read rules room c with
      | error f => rfl
      | ok r =>
        obtain ⟨s, d⟩ := r
        have hlt := Parse.remaining_lt (advances_read rules room) hr
        dsimp only
        rw [ih (m := m) (c := d) (by omega) (by omega)]

variable {rules : Rules} {room : Nat} {c d : Cursor}

theorem all_of_nil (h : c.ahead = []) : all rules room c = ([], .ok []) := by
  have hr : c.remaining = 0 := List.length_eq_zero_iff.2 h
  rw [all, hr, readAll]

theorem all_of_error {f : Failure} (hc : c.ahead ≠ []) (h : read rules room c = .error f) :
    all rules room c = ([c.peek.kind], .error f) := by
  obtain ⟨n, hn⟩ : ∃ n, c.remaining = n + 1 :=
    ⟨c.remaining - 1, by have := List.length_pos_iff.2 hc; unfold Cursor.remaining; omega⟩
  have he : ¬ c.atEnd = true := fun he => hc ((Cursor.atEnd_iff c).1 he)
  rw [all, hn, readAll, if_neg he, h]

theorem all_of_ok {s : Statement} (h : read rules room c = .ok (s, d)) :
    all rules room c =
      (c.peek.kind :: (all rules room d).1, (all rules room d).2.map (s :: ·)) := by
  have hlt := Parse.remaining_lt (advances_read rules room) h
  obtain ⟨n, hn⟩ : ∃ n, c.remaining = n + 1 := ⟨c.remaining - 1, by omega⟩
  have he : ¬ c.atEnd = true := by
    intro he
    have hnil := (Cursor.atEnd_iff c).1 he
    simp [Cursor.remaining, hnil] at hn
  rw [all, hn, readAll, if_neg he, h]
  dsimp only
  rw [readAll_bound rules room (n := n) (m := d.remaining) (by omega) (Nat.le_refl _)]
  rfl

end Statement
end LetArith
