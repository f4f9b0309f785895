import Mathlib.Data.List.Infix

/-! Lists in which some members open what others close.  The depth of such a list is the greatest
number of those that are open at once, counted over all its beginnings. -/

namespace LetArith

structure Brackets (α : Type) where
  opens : α → Bool
  closes : α → Bool

namespace Brackets

variable {α : Type} (b : Brackets α)

def marks (a : α) : Bool := b.opens a || b.closes a

def Balanced (l : List α) : Prop := l.countP b.opens = l.countP b.closes

/-- All that is opened is closed, and nothing before it has been opened. -/
structure Nested (l : List α) : Prop where
  balanced : b.Balanced l
  closes_le : ∀ u, u <+: l → u.countP b.closes ≤ u.countP b.opens

/-- At the end so many are open. -/
def Leaves (n : Nat) (l : List α) : Prop := l.countP b.opens = l.countP b.closes + n

/-- The greatest number that are open at once. -/
def depth (l : List α) : Nat :=
  (l.inits.map (fun u => u.countP b.opens - u.countP b.closes)).foldr max 0

variable {b} {u v l : List α} {a c : α} {n : Nat}

theorem depth_le_iff :
    b.depth l ≤ n ↔ ∀ u, u <+: l → u.countP b.opens ≤ u.countP b.closes + n := by
  have hmax : ∀ ms : List Nat, ms.foldr max 0 ≤ n ↔ ∀ m ∈ ms, m ≤ n := by
    intro ms
    induction ms with
    | nil => simp
    | cons m ms ih =>
      rw [List.foldr_cons, Nat.max_le, ih]
      simp
  simp [depth, hmax, Nat.add_comm]

theorem le_depth (h : u <+: l) : u.countP b.opens ≤ u.countP b.closes + b.depth l :=
  depth_le_iff.1 (Nat.le_refl _) u h

theorem prefix_append_cases {x : List α} (h : x <+: u ++ v) :
    x <+: u ∨ ∃ y, x = u ++ y ∧ y <+: v := by
  obtain ⟨z, hz⟩ := h
  obtain ⟨y, rfl, _⟩ | ⟨y, rfl, rfl⟩ := List.append_eq_append_iff.1 hz
  · exact Or.inl (List.prefix_append x y)
  · exact Or.inr ⟨y, rfl, List.prefix_append y z⟩

theorem balanced_nil : b.Balanced [] := rfl

theorem Balanced.append (hu : b.Balanced u) (hv : b.Balanced v) : b.Balanced (u ++ v) := by
  unfold Balanced at *
  rw [List.countP_append, List.countP_append, hu, hv]

theorem Balanced.of_append (hu : b.Balanced u) (h : b.Balanced (u ++ v)) : b.Balanced v := by
  unfold Balanced at *
  rw [List.countP_append, List.countP_append] at h
  omega

/-- What stands behind a balanced list begins with nothing open. -/
theorem depth_append (hu : b.Balanced u) : b.depth (u ++ v) = max (b.depth u) (b.depth v) := by
  unfold Balanced at hu
  apply Nat.le_antisymm
  · refine depth_le_iff.2 (fun x hx => ?_)
    obtain hx | ⟨y, rfl, hy⟩ := prefix_append_cases hx
    · have := le_depth (b := b) hx
      omega
    · have := le_depth (b := b) hy
      rw [List.countP_append, List.countP_append]
      omega
  · refine Nat.max_le.2 ⟨depth_le_iff.2 (fun x hx => ?_), depth_le_iff.2 (fun x hx => ?_)⟩
    · exact le_depth (hx.trans (List.prefix_append u v))
    · have := le_depth (b := b) ((List.prefix_append_right_inj u).2 hx)
      rw [List.countP_append, List.countP_append] at this
      omega

theorem depth_open (ha : b.opens a = true) (ha' : b.closes a = false) :
    b.depth (a :: l) = b.depth l + 1 := by
  have hcount : ∀ x : List α, (a :: x).countP b.opens = x.countP b.opens + 1 ∧
      (a :: x).countP b.closes = x.countP b.closes :=
    fun x => ⟨List.countP_cons_of_pos ha, List.countP_cons_of_neg (by simp [ha'])⟩
  apply Nat.le_antisymm
  · refine depth_le_iff.2 (fun x hx => ?_)
    cases x with
    | nil => simp
    | cons d x =>
      obtain ⟨rfl, htail⟩ := List.cons_prefix_cons.1 hx
      have := le_depth (b := b) htail
      have := hcount x
      omega
  · have hinside : b.depth l ≤ b.depth (a :: l) - 1 := by
      refine depth_le_iff.2 (fun x hx => ?_)
      have := le_depth (b := b) (List.cons_prefix_cons.2 ⟨rfl, hx⟩ : a :: x <+: a :: l)
      have := hcount x
      omega
    have hfirst : [a] <+: a :: l := ⟨l, rfl⟩
    have := le_depth (b := b) hfirst
    have := hcount []
    rw [List.countP_nil, List.countP_nil] at this
    omega

theorem depth_concat (hc : b.opens c = false) : b.depth (l ++ [c]) = b.depth l := by
  apply Nat.le_antisymm
  · refine depth_le_iff.2 (fun x hx => ?_)
    obtain hinside | ⟨y, rfl, hy⟩ := prefix_append_cases hx
    · exact le_depth hinside
    · have hnone : y.countP b.opens ≤ [c].countP b.opens := hy.sublist.countP_le
      rw [List.countP_cons_of_neg (by simp [hc]), List.countP_nil] at hnone
      have := le_depth (b := b) (List.prefix_refl l)
      rw [List.countP_append, List.countP_append]
      omega
  · exact depth_le_iff.2 (fun x hx => le_depth (hx.trans (List.prefix_append l [c])))

theorem depth_le_countP : b.depth l ≤ l.countP b.opens := by
  refine depth_le_iff.2 (fun u hu => ?_)
  have hle : u.countP b.opens ≤ l.countP b.opens := hu.sublist.countP_le
  omega

theorem nested_nil : b.Nested [] := by
  refine ⟨balanced_nil, fun u hu => ?_⟩
  rw [List.prefix_nil.1 hu]
  exact Nat.le_refl _

theorem Nested.append (hu : b.Nested u) (hv : b.Nested v) : b.Nested (u ++ v) := by
  refine ⟨hu.balanced.append hv.balanced, fun x hx => ?_⟩
  obtain hx | ⟨y, rfl, hy⟩ := prefix_append_cases hx
  · exact hu.closes_le x hx
  · have hbalanced := hu.balanced
    unfold Balanced at hbalanced
    have hle := hv.closes_le y hy
    rw [List.countP_append, List.countP_append]
    omega

theorem Leaves.append (hu : b.Balanced u) (hv : b.Leaves n v) : b.Leaves n (u ++ v) := by
  unfold Balanced Leaves at *
  rw [List.countP_append, List.countP_append, hu, hv, Nat.add_assoc]

theorem Leaves.cons (hl : b.Leaves n l) (ha : b.opens a = true) (ha' : b.closes a = false) :
    b.Leaves (n + 1) (a :: l) := by
  unfold Leaves at *
  rw [List.countP_cons_of_pos ha, List.countP_cons_of_neg (by simp [ha']), hl, Nat.add_assoc]

theorem Leaves.lt_depth (hu : b.Leaves n u) (ha : b.opens a = true) (ha' : b.closes a = false) :
    n < b.depth (u ++ a :: v) := by
  have hle := le_depth (b := b) (⟨v, by simp⟩ : u ++ [a] <+: u ++ a :: v)
  unfold Leaves at hu
  rw [List.countP_append, List.countP_append, List.countP_cons_of_pos ha,
    List.countP_cons_of_neg (by simp [ha']), List.countP_nil, List.countP_nil] at hle
  omega

section Neutral

variable (h : b.marks a = false)

include h

theorem Balanced.cons (hl : b.Balanced l) : b.Balanced (a :: l) := by
  obtain ⟨ho, hc⟩ := Bool.or_eq_false_iff.1 h
  unfold Balanced at *
  rw [List.countP_cons_of_neg (by simp [ho]), List.countP_cons_of_neg (by simp [hc]), hl]

theorem Balanced.of_cons (hl : b.Balanced (a :: l)) : b.Balanced l :=
  (balanced_nil.cons h).of_append hl

theorem Balanced.concat (hl : b.Balanced l) : b.Balanced (l ++ [a]) :=
  hl.append (balanced_nil.cons h)

theorem Nested.cons (hl : b.Nested l) : b.Nested (a :: l) := by
  refine ⟨hl.balanced.cons h, fun x hx => ?_⟩
  obtain ⟨ho, hc⟩ := Bool.or_eq_false_iff.1 h
  cases x with
  | nil => exact Nat.le_refl _
  | cons d x =>
    obtain ⟨rfl, htail⟩ := List.cons_prefix_cons.1 hx
    rw [List.countP_cons_of_neg (by simp [hc]), List.countP_cons_of_neg (by simp [ho])]
    exact hl.closes_le x htail

theorem depth_cons : b.depth (a :: l) = b.depth l := by
  have hone : b.depth ([] ++ [a]) = 0 := depth_concat (Bool.or_eq_false_iff.1 h).1
  rw [← List.singleton_append, depth_append (balanced_nil.cons h), ← List.nil_append [a], hone,
    Nat.zero_max]

theorem nested_singleton : b.Nested [a] := nested_nil.cons h

theorem depth_singleton : b.depth [a] = 0 := depth_cons h

end Neutral

section Group

variable (ha : b.opens a = true) (ha' : b.closes a = false) (hc : b.opens c = false)

include ha ha' hc

theorem Balanced.group (hl : b.Balanced l) (hc' : b.closes c = true) :
    b.Balanced (a :: (l ++ [c])) := by
  unfold Balanced at *
  simp [List.countP_append, ha, ha', hc, hc', hl]

omit hc in
/-- What stands in a group stands behind more that is opened than is closed. -/
theorem Nested.countP_open (hl : b.Nested l) (hu : u <+: l) :
    (a :: u).countP b.closes < (a :: u).countP b.opens := by
  rw [List.countP_cons_of_pos ha, List.countP_cons_of_neg (by simp [ha'])]
  exact Nat.lt_succ_of_le (hl.closes_le u hu)

theorem Nested.group (hl : b.Nested l) (hc' : b.closes c = true) : b.Nested (a :: (l ++ [c])) := by
  have hgroup := hl.balanced.group ha ha' hc hc'
  refine ⟨hgroup, fun x hx => ?_⟩
  cases x with
  | nil => exact Nat.le_refl _
  | cons d x =>
    obtain ⟨rfl, htail⟩ := List.cons_prefix_cons.1 hx
    rcases List.prefix_concat_iff.1 htail with rfl | hinside
    · exact hgroup.ge
    · exact Nat.le_of_lt (hl.countP_open ha ha' hinside)

theorem depth_group : b.depth (a :: (l ++ [c])) = b.depth l + 1 := by
  rw [depth_open ha ha', depth_concat hc]

end Group

end Brackets
end LetArith
