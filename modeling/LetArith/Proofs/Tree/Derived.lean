import LetArith.Proofs.Tree.Leaves

/-! What a derivation says about its tree.  The text of the tree has no deeper groups than the
tokens had room for, and in the tokens of a text all names and numbers are legible. -/

namespace LetArith

theorem deepened_le {needed : Bool} {depth room : Nat} (h : depth ≤ room)
    (h' : needed = true → depth + 1 ≤ room) : deepened needed depth ≤ room := by
  cases needed with
  | false => exact h
  | true => exact h' rfl

theorem le_deepened (needed : Bool) (depth : Nat) : depth ≤ deepened needed depth := by
  cases needed <;> simp [deepened]

theorem succ_le_of_deepened {needed : Bool} {depth room : Nat} (h : deepened needed depth ≤ room)
    (hn : needed = true) : depth + 1 ≤ room := by
  rw [hn] at h
  exact h

theorem deepened_le_of_imp {needed needed' : Bool} {depth room : Nat}
    (h : deepened needed depth ≤ room) (hn : needed' = true → needed = true) :
    deepened needed' depth ≤ room :=
  deepened_le (Nat.le_trans (le_deepened _ _) h) (fun h' => succ_le_of_deepened h (hn h'))

theorem deepened_le_succ {needed needed' : Bool} {depth room : Nat}
    (h : deepened needed depth ≤ room) : deepened needed' depth ≤ room + 1 :=
  have hin := Nat.le_trans (le_deepened _ _) h
  deepened_le (Nat.le_succ_of_le hin) (fun _ => Nat.succ_le_succ hin)

namespace Expr

theorem looser_tighter {e : Expr} {tier : Tier} (h : decide (e.tier < tier) = true) :
    decide (e.tier < tier.tighter) = true :=
  decide_eq_true (Tier.lt_of_lt_of_le (of_decide_eq_true h) tier.le_tighter)

theorem looser_right {e : Expr} {op : Operator} (h : decide (e.tier ≤ op.tier) = true) :
    decide (e.tier < op.tier.tighter) = true :=
  decide_eq_true (Tier.lt_of_le_of_lt (of_decide_eq_true h)
    (Tier.lt_tighter (Tier.ne_primary_of_lt op.tier_lt_primary)))

/-- An operation needs no parentheses where its own tier is called for. -/
theorem deepened_binary {l r : Expr} {op : Operator} {depth room : Nat} (h : depth ≤ room) :
    deepened ((binary l op r).tier < op.tier) depth ≤ room :=
  deepened_le h (fun hlt => absurd (of_decide_eq_true hlt) (Nat.lt_irrefl _))

end Expr

namespace Expr.Derives

variable {m : Matching} {tier : Tier} {room : Nat} {w : List Token} {next : Token} {e : Expr}

/-- Groups are only written where some were read.  One more is called for where the tree is
looser than its place, and there it was read in a group of its own. -/
theorem deepened_nesting_le (h : Derives m tier room w next e) :
    deepened (e.tier < tier) e.nesting ≤ room := by
  induction h with
  | name _ => exact Nat.zero_le _
  | number _ _ => exact Nat.zero_le _
  | group _ _ _ _ ih => exact deepened_le_succ ih
  | one _ _ ih => exact deepened_le_of_imp ih looser_tighter
  | @more tier room w v t next op l r _ operator _ _ ihl ihr =>
    have htier := Matching.tier_of_operator? operator
    subst htier
    have hboth : nesting (binary l op r) ≤ room :=
      Nat.max_le.2 ⟨ihl, deepened_le_of_imp ihr looser_right⟩
    exact deepened_binary hboth

theorem legible (h : Derives m tier room w next e) (hw : ∀ t ∈ w, t.lexeme.Spelled) :
    e.Legible where
  names := by
    intro s hs
    obtain ⟨t, ht, hleaf⟩ := h.accounts.exists_of_mem_leaves (mem_leaves_of_mem_names hs)
    obtain ⟨hkind, rfl⟩ := Token.of_leaf?_name hleaf
    exact Lexeme.isName_of_spelled (hw t ht) hkind
  numbers := by
    intro x hx
    obtain ⟨t, ht, hleaf⟩ := h.accounts.exists_of_mem_leaves (mem_leaves_of_mem_numbers hx)
    obtain ⟨hkind, hvalue⟩ := Token.of_leaf?_number hleaf
    exact Binary64.eq_of_finiteOfText? (Lexeme.isNumeral_of_spelled (hw t ht) hkind) hvalue

end Expr.Derives

namespace Statement.Derives

variable {m : Matching} {room : Nat} {w : List Token} {next : Token} {s : Statement}

theorem nesting_le (h : Derives m room w next s) : s.nesting ≤ room := by
  cases h with
  | bare _ _ _ => exact Nat.zero_le _
  | valued _ _ _ value _ => exact Nat.le_trans (le_deepened _ _) value.1.deepened_nesting_le
  | expression value => exact Nat.le_trans (le_deepened _ _) value.1.deepened_nesting_le

theorem legible (h : Derives m room w next s) (hw : ∀ t ∈ w, t.lexeme.Spelled) : s.Legible := by
  cases h with
  | @bare k n s _ keyword name semicolon =>
    refine ⟨fun x hx => ?_, fun x hx => absurd hx (by simp [numbers]), fun d hd hc => ?_⟩
    · rw [List.mem_singleton.1 hx]
      exact Lexeme.isName_of_spelled (hw n (by simp)) name
    · cases hd
      cases hc
  | @valued k n q s _ v e keyword name equals value semicolon =>
    have hvalue := value.1.legible (fun t ht => hw t (by simp [ht]))
    refine ⟨fun x hx => ?_, hvalue.numbers, fun d hd _ hnone => ?_⟩
    · rcases List.mem_cons.1 hx with rfl | hx
      · exact Lexeme.isName_of_spelled (hw n (by simp)) name
      · exact hvalue.names x hx
    · cases hd
      cases hnone
  | expression value =>
    have hvalue := value.1.legible hw
    refine ⟨hvalue.names, hvalue.numbers, fun d hd => ?_⟩
    cases hd

end Statement.Derives

/-- Statements read from the tokens of a text are legible, with groups no deeper than the room. -/
theorem Program.Derives.legible {m : Matching} {room : Nat} {w : List Token} {stop : Token}
    {ss : List Statement} (h : Derives m room w stop ss) (hw : ∀ t ∈ w, t.lexeme.Spelled) :
    ∀ s ∈ ss, s.Legible ∧ s.nesting ≤ room := by
  induction h with
  | nil =>
    intro s hs
    cases hs
  | @cons w v stop s ss first _ ih =>
    intro t ht
    rcases List.mem_cons.1 ht with rfl | ht
    · exact ⟨first.legible (fun u hu => hw u (by simp [hu])), first.nesting_le⟩
    · exact ih (fun u hu => hw u (by simp [hu])) t ht

end LetArith
