import LetArith.Proofs.Grammar.Running
import LetArith.Proofs.Tree.Parentheses

/-! Where an expression is to be split.  The operators of its tokens that stand outside all
parentheses tell: the last of the loosest ones is on top of the tree, and what stands before and
behind it are expressions by themselves.  Where there is no such operator, there is but one
operand. -/

namespace LetArith

/-- The tokens are `u`, the operator, and `v`, and the operator stands outside all parentheses: as
many have been closed before it as opened. -/
structure Outside (w u : List Token) (op : Operator) (v : List Token) : Prop where
  between : ∃ t, w = u ++ t :: v ∧ Operator.ofLexeme? t.text = some op
  balanced : Kind.parentheses.Balanced (u.map Token.kind)

/-- The operator is the last of the loosest ones outside all parentheses. -/
structure Splits (w u : List Token) (op : Operator) (v : List Token) : Prop where
  outside : Outside w u op v
  loosest : ∀ u' op' v', Outside w u' op' v' → op.tier ≤ op'.tier
  last : ∀ u' op' v', Outside w u' op' v' → op'.tier = op.tier → u'.length ≤ u.length

namespace Outside

variable {u v w x y : List Token} {t o c : Token} {op : Operator}

theorem append_cases (hu : Kind.parentheses.Balanced (u.map Token.kind))
    (ht : Kind.parentheses.marks t.kind = false) (h : Outside (u ++ t :: v) x op y) :
    (∃ y', Outside u x op y') ∨ (x = u ∧ Operator.ofLexeme? t.text = some op) ∨
      ∃ x', x = u ++ t :: x' ∧ Outside v x' op y := by
  obtain ⟨⟨s, heq, hop⟩, hx⟩ := h
  rcases List.append_eq_append_iff.1 heq with ⟨z, rfl, hz⟩ | ⟨z, rfl, hz⟩
  · cases z with
    | nil =>
      cases hz
      exact Or.inr (Or.inl ⟨List.append_nil u, hop⟩)
    | cons t' z =>
      cases hz
      rw [List.map_append, List.map_cons] at hx
      exact Or.inr (Or.inr ⟨z, rfl, ⟨s, rfl, hop⟩, Brackets.Balanced.of_cons ht (hu.of_append hx)⟩)
  · cases z with
    | nil =>
      cases hz
      exact Or.inr (Or.inl ⟨(List.append_nil x).symm, hop⟩)
    | cons s' z =>
      cases hz
      exact Or.inl ⟨z, ⟨s, rfl, hop⟩, hx⟩

theorem not_singleton (ht : Operator.ofLexeme? t.text = none) : ¬ Outside [t] u op v := by
  rintro ⟨⟨s, heq, hop⟩, _⟩
  obtain ⟨rfl, hs⟩ := List.append_eq_singleton_iff.1 heq.symm |>.resolve_right (by simp)
  cases hs
  rw [ht] at hop
  cases hop

theorem not_group (hw : Kind.parentheses.Nested (w.map Token.kind)) (ho : o.kind = .openParen)
    (ho' : Operator.ofLexeme? o.text = none) : ¬ Outside (o :: (w ++ [c])) u op v := by
  rintro ⟨⟨s, heq, hop⟩, hu⟩
  cases u with
  | nil =>
    cases heq
    rw [ho'] at hop
    cases hop
  | cons o' u =>
    obtain ⟨rfl, htail⟩ := List.cons.inj heq
    have hstart : u <+: w := by
      have h : u <+: w ++ [c] := ⟨s :: v, htail.symm⟩
      refine (List.prefix_concat_iff.1 h).resolve_left (fun hu => ?_)
      rw [← hu] at htail
      simp at htail
    have hlt := hw.countP_open (b := Kind.parentheses) (a := o.kind) (by rw [ho]; rfl)
      (by rw [ho]; rfl) (hstart.map Token.kind)
    exact absurd hu (Nat.ne_of_gt hlt)

end Outside

namespace Splits

variable {w u u' v v' : List Token} {op op' : Operator}

theorem unique (h : Splits w u op v) (h' : Splits w u' op' v') : u = u' ∧ op = op' ∧ v = v' := by
  have htier : op.tier = op'.tier :=
    Tier.le_antisymm (h.loosest _ _ _ h'.outside) (h'.loosest _ _ _ h.outside)
  have hlength : u.length = u'.length :=
    Nat.le_antisymm (h'.last _ _ _ h.outside htier) (h.last _ _ _ h'.outside htier.symm)
  obtain ⟨t, heq, hop⟩ := h.outside.between
  obtain ⟨t', heq', hop'⟩ := h'.outside.between
  obtain ⟨rfl, hrest⟩ := List.append_inj (heq.symm.trans heq') hlength
  cases hrest
  exact ⟨rfl, Option.some.inj (hop.symm.trans hop'), rfl⟩

end Splits

theorem Cursor.Passes.position_ofTokens {w ts : List Token} {d : Cursor}
    (h : (ofTokens ts).Passes w d) : d.position = w.length := by
  simp [position, h.behind]

namespace Expr

variable {m : Matching} {tier : Tier} {room : Nat} {u v w : List Token} {t next : Token}
  {op : Operator} {l r e : Expr}

theorem Derives.tier_le (h : Derives m tier room w next e) (hw : ∀ t ∈ w, t.Consistent)
    (ho : Outside w u op v) : tier ≤ op.tier := by
  induction h generalizing u op v with
  | @name _ t _ kind | @number _ t _ _ kind _ =>
    have ht := (hw t (by simp)).ofLexeme?_eq_none (by rw [kind]; decide)
    exact absurd ho (Outside.not_singleton ht)
  | @group _ o _ _ _ _ opening inside _ _ _ =>
    have ht := (hw o (by simp)).ofLexeme?_eq_none (by rw [opening]; decide)
    have hnested := (inside.parentheses (fun t ht => hw t (by simp [ht]))).1
    exact absurd ho (Outside.not_group hnested opening ht)
  | one _ _ ih => exact Nat.le_trans (Tier.le_tighter _) (ih hw ho)
  | @more tier _ w v t _ op' _ _ before operator _ _ ihl ihr =>
    have hl : ∀ t ∈ w, t.Consistent := fun t ht => hw t (by simp [ht])
    have hmark := Matching.marks_of_operator? operator (hw t (by simp))
    rcases ho.append_cases (before.parentheses hl).1.balanced hmark with
      ⟨_, ho⟩ | ⟨_, hop⟩ | ⟨_, _, ho⟩
    · exact ihl hl ho
    · rw [Matching.ofLexeme?_of_operator? operator] at hop
      cases hop
      exact Nat.le_of_eq (congrArg Tier.rank (Matching.tier_of_operator? operator).symm)
    · exact Nat.le_trans (Tier.le_tighter _) (ihr (fun t ht => hw t (by simp [ht])) ho)

theorem splits_of_derives (hw : ∀ s ∈ u ++ t :: v, s.Consistent)
    (before : Derives m op.tier room u t l) (operator : m.operator? op.tier t = some op)
    (last : Derives m op.tier.tighter room v next r) : Splits (u ++ t :: v) u op v := by
  have hl : ∀ t ∈ u, t.Consistent := fun t ht => hw t (by simp [ht])
  have hr : ∀ t ∈ v, t.Consistent := fun t ht => hw t (by simp [ht])
  have hbalanced := (before.parentheses hl).1.balanced
  have hmark := Matching.marks_of_operator? operator (hw t (by simp))
  have hop := Matching.ofLexeme?_of_operator? operator
  have hlt := Tier.lt_tighter (Tier.ne_primary_of_lt op.tier_lt_primary)
  refine ⟨⟨⟨t, rfl, hop⟩, hbalanced⟩, fun u' op' v' ho => ?_, fun u' op' v' ho htier => ?_⟩
  · rcases ho.append_cases hbalanced hmark with ⟨_, ho⟩ | ⟨_, hop'⟩ | ⟨_, _, ho⟩
    · exact before.tier_le hl ho
    · rw [hop] at hop'
      cases hop'
      exact Nat.le_refl _
    · exact Nat.le_trans (Tier.le_tighter _) (last.tier_le hr ho)
  · rcases ho.append_cases hbalanced hmark with ⟨y, ho⟩ | ⟨rfl, _⟩ | ⟨_, _, ho⟩
    · obtain ⟨s, hs, _⟩ := ho.between
      rw [hs, List.length_append]
      exact Nat.le_add_right _ _
    · exact Nat.le_refl _
    · exact absurd (htier ▸ last.tier_le hr ho) (Tier.not_le.2 hlt)

theorem Derives.cases_top (h : Derives m tier room w next e) :
    Derives m .primary room w next e ∨
      ∃ u t v op l r, w = u ++ t :: v ∧ e = binary l op r ∧ m.operator? op.tier t = some op ∧
        Derives m op.tier room u t l ∧ Derives m op.tier.tighter room v next r := by
  induction h with
  | name kind => exact Or.inl (.name kind)
  | number kind value => exact Or.inl (.number kind value)
  | group opening inside ends closing _ => exact Or.inl (.group opening inside ends closing)
  | one _ _ ih => exact ih
  | more before operator last _ _ _ =>
    have htier := Matching.tier_of_operator? operator
    subst htier
    exact Or.inr ⟨_, _, _, _, _, _, rfl, rfl, operator, before, last⟩

/-- The tokens, all of them, are read as the expression, with no group open before them. -/
def ReadsAll (config : Config) (w : List Token) (e : Expr) : Prop :=
  ∃ p, (Parser.ofTokens (.standard config.matching) config.maxDepth w).run read = (.ok e, p) ∧
    p.cursor.position = w.length

variable {config : Config}

theorem readsAll_iff :
    ReadsAll config w e ↔ (∀ t ∈ w, t.isEnd = false) ∧
      Derives config.matching .additive config.maxDepth w (Token.endAt .null) e := by
  constructor
  · rintro ⟨p, hrun, hlength⟩
    obtain ⟨d, hread, rfl⟩ := Parser.exists_of_run_ok hrun
    obtain ⟨w', hpasses, hd⟩ := (recognizes_read _ _ _ _ _).1 hread
    have hstart : w' <+: w := by
      have hahead : w' <+: (Cursor.ofTokens w).ahead := ⟨d.ahead, hpasses.ahead.symm⟩
      rw [Cursor.ahead_ofTokens] at hahead
      exact hahead.trans (List.takeWhile_prefix _)
    have hposition : d.position = w'.length := hpasses.position_ofTokens
    obtain rfl : w' = w := hstart.eq_of_length (hposition.symm.trans hlength)
    exact ⟨fun t => hpasses.isEnd_of_mem, hd.1.of_neutral (Matching.neutral_endAt _ _)⟩
  · rintro ⟨hopen, hd⟩
    obtain ⟨d, hpasses, hahead, hstop⟩ := (Cursor.ofTokens w).exists_passes_ahead
    rw [Cursor.ahead_ofTokens_of_open hopen] at hpasses
    rw [Cursor.stop_ofTokens_of_open hopen] at hstop
    have hneutral : config.matching.Neutral d.peek := by
      rw [Cursor.peek_of_nil hahead, hstop]
      exact Matching.neutral_endAt _ _
    have hread := (recognizes_read config.matching config.maxDepth (Cursor.ofTokens w) e d).2
      ⟨w, hpasses, hd.of_neutral hneutral, hneutral _⟩
    exact ⟨_, Parser.run_of_ok hread, hpasses.position_ofTokens⟩

/-- An expression without an operator outside all parentheses is one operand; any other is split
at the last of its loosest ones, and either side is read by itself as the operand it is. -/
theorem readsAll_split (hw : ∀ t ∈ w, t.Consistent) (h : ReadsAll config w e) :
    ((∃ u op v, Outside w u op v) → ∃ u op v, Splits w u op v) ∧
      (∀ u op v, Splits w u op v →
        ∃ l r, ReadsAll config u l ∧ ReadsAll config v r ∧ e = binary l op r) ∧
      ((∀ u op v, ¬ Outside w u op v) →
        (∃ t, w = [t] ∧ t.kind = .identifier ∧ e = identifier t.text) ∨
        (∃ t x, w = [t] ∧ t.kind = .number ∧ Binary64.finiteOfText? t.text = some x ∧
          e = number x) ∨
        ∃ o v c, w = o :: (v ++ [c]) ∧ o.kind = .openParen ∧ c.kind = .closeParen ∧
          ReadsAll config v e) := by
  obtain ⟨hopen, hd⟩ := readsAll_iff.1 h
  rcases hd.cases_top with hprimary | ⟨u, t, v, op, l, r, rfl, rfl, operator, before, last⟩
  · have hnone : ∀ u op v, ¬ Outside w u op v := fun u op v ho =>
      Tier.not_le.2 op.tier_lt_primary (hprimary.tier_le hw ho)
    refine ⟨fun ⟨u, op, v, ho⟩ => absurd ho (hnone u op v),
      fun u op v hs => absurd hs.outside (hnone u op v), fun _ => ?_⟩
    rcases derives_primary_iff.1 hprimary with ⟨t, kind, rfl, rfl⟩ | ⟨t, x, kind, value, rfl, rfl⟩ |
      ⟨k, o, v, c, hroom, opening, closing, rfl, inside⟩
    · exact Or.inl ⟨t, rfl, kind, rfl⟩
    · exact Or.inr (Or.inl ⟨t, x, rfl, kind, value, rfl⟩)
    · refine Or.inr (Or.inr ⟨o, v, c, rfl, opening, closing, ?_⟩)
      have hroom' : k ≤ config.maxDepth := hroom ▸ Nat.le_succ k
      have hv := (inside.of_neutral (Matching.neutral_endAt _ .null)).1.mono hroom'
      exact readsAll_iff.2 ⟨fun t ht => hopen t (by simp [ht]), hv⟩
  · have hsplits := splits_of_derives hw before operator last
    refine ⟨fun _ => ⟨u, op, v, hsplits⟩, fun u' op' v' hs => ?_,
      fun hnone => absurd hsplits.outside (hnone u op v)⟩
    obtain ⟨rfl, rfl, rfl⟩ := hs.unique hsplits
    -- by itself either side is followed by no operator at all
    have hend := Matching.neutral_endAt config.matching .null
    have hl := (before.of_neutral hend).loosen (Tier.additive_le _) (fun _ _ => hend _)
    have hr := (last.of_neutral hend).loosen (Tier.additive_le _) (fun _ _ => hend _)
    exact ⟨l, r, readsAll_iff.2 ⟨fun t ht => hopen t (by simp [ht]), hl⟩,
      readsAll_iff.2 ⟨fun t ht => hopen t (by simp [ht]), hr⟩, rfl⟩

def differences : List Token :=
  [⟨.identifier, "a", Span.null⟩, ⟨.dash, "-", Span.null⟩, ⟨.openParen, "(", Span.null⟩,
    ⟨.identifier, "b", Span.null⟩, ⟨.plus, "+", Span.null⟩, ⟨.identifier, "c", Span.null⟩,
    ⟨.closeParen, ")", Span.null⟩, ⟨.star, "*", Span.null⟩, ⟨.identifier, "d", Span.null⟩,
    ⟨.dash, "-", Span.null⟩, ⟨.identifier, "e", Span.null⟩]

/-- The second minus is on top: the first one, the product and its sum are all on its left. -/
theorem readsAll_split_differences :
    ∃ u v, Splits differences u .subtract v ∧
      ReadsAll {} u (.binary (.identifier "a") .subtract
        (.binary (.binary (.identifier "b") .add (.identifier "c")) .multiply (.identifier "d"))) ∧
      ReadsAll {} v (.identifier "e") := by
  have hw : ∀ t ∈ differences, t.Consistent := by
    show ∀ t ∈ differences, t.text ∈ Operator.texts ↔ t.kind ∈ Kind.operators
    decide +kernel
  have h : ReadsAll {} differences (.binary (.binary (.identifier "a") .subtract
      (.binary (.binary (.identifier "b") .add (.identifier "c")) .multiply (.identifier "d")))
      .subtract (.identifier "e")) :=
    ⟨_, Prod.ext (by decide +kernel) rfl, by decide +kernel⟩
  have hminus : Outside differences (differences.take 1) .subtract (differences.drop 2) :=
    ⟨⟨differences[1], rfl, by decide⟩, rfl⟩
  obtain ⟨hexists, hsplit, _⟩ := readsAll_split hw h
  obtain ⟨u, op, v, hs⟩ := hexists ⟨_, _, _, hminus⟩
  obtain ⟨l, r, hl, hr, htree⟩ := hsplit u op v hs
  cases htree
  exact ⟨u, v, hs, hl, hr⟩

end Expr

end LetArith
