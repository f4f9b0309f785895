import LetArith.Source.Tokens

/-! Pieces told apart from the cutting of a text.  A piece has a shape of its own, and ends
where the characters after it cannot make it longer; a text is cut in the one way in which all
its pieces do. -/

namespace LetArith

def IsWord (cs : List Char) : Prop :=
  ∃ c ds, cs = c :: ds ∧ isWordStart c = true ∧ ∀ d ∈ ds, isWordPart d = true

/-- The text of a word that is no keyword. -/
def IsName (s : String) : Prop := IsWord s.toList ∧ s ≠ "let" ∧ s ≠ "const"

def IsDigits (cs : List Char) : Prop := cs ≠ [] ∧ ∀ c ∈ cs, c.isDigit = true

/-- Digits, or digits on both sides of a point. -/
def IsNumeral (cs : List Char) : Prop :=
  IsDigits cs ∨ ∃ whole fraction, IsDigits whole ∧ IsDigits fraction ∧
    cs = whole ++ '.' :: fraction

theorem head_of_isNumeral {cs : List Char} (h : IsNumeral cs) :
    ∃ c ds, cs = c :: ds ∧ c.isDigit = true := by
  rcases h with h | ⟨whole, fraction, h, _, rfl⟩
  · obtain ⟨c, ds, rfl⟩ := List.exists_cons_of_ne_nil h.1
    exact ⟨c, ds, rfl, h.2 c (by simp)⟩
  · obtain ⟨c, ds, rfl⟩ := List.exists_cons_of_ne_nil h.1
    exact ⟨c, ds ++ '.' :: fraction, rfl, h.2 c (by simp)⟩

section Characters

variable {c : Char}

theorem isDigit_iff : c.isDigit = true ↔ 48 ≤ c.toNat ∧ c.toNat ≤ 57 := by
  simp only [Char.isDigit, Bool.and_eq_true, decide_eq_true_eq, UInt32.le_iff_toNat_le, ge_iff_le]
  exact Iff.rfl

theorem isUpper_iff : c.isUpper = true ↔ 65 ≤ c.toNat ∧ c.toNat ≤ 90 := decide_eq_true_iff

theorem isLower_iff : c.isLower = true ↔ 97 ≤ c.toNat ∧ c.toNat ≤ 122 := by
  show (decide _ && decide _) = true ↔ _
  rw [Bool.and_eq_true, decide_eq_true_iff, decide_eq_true_iff]
  exact Iff.rfl

theorem isWordStart_iff :
    isWordStart c = true ↔
      (65 ≤ c.toNat ∧ c.toNat ≤ 90) ∨ (97 ≤ c.toNat ∧ c.toNat ≤ 122) ∨ c = '_' := by
  show ((c.isUpper || c.isLower) || c == '_') = true ↔ _
  rw [Bool.or_eq_true, Bool.or_eq_true, isUpper_iff, isLower_iff, beq_iff_eq, or_assoc]

theorem isBlank_of_toNat (h : isBlank c = true) : c.toNat ≤ 32 ∨ 133 ≤ c.toNat := by
  simp only [isBlank, Bool.or_eq_true, Bool.and_eq_true, decide_eq_true_eq, beq_iff_eq] at h
  omega

theorem isWordStart_of_isDigit (h : c.isDigit = true) : isWordStart c = false := by
  have hn := isDigit_iff.1 h
  rw [Bool.eq_false_iff]
  intro hw
  rcases isWordStart_iff.1 hw with h | h | rfl
  · omega
  · omega
  · exact absurd hn (by decide)

theorem isWordStart_of_isBlank (h : isBlank c = true) : isWordStart c = false := by
  have hn := isBlank_of_toNat h
  rw [Bool.eq_false_iff]
  intro hw
  rcases isWordStart_iff.1 hw with h | h | rfl
  · omega
  · omega
  · exact absurd hn (by decide)

theorem isDigit_of_isBlank (h : isBlank c = true) : c.isDigit = false := by
  have hn := isBlank_of_toNat h
  rw [Bool.eq_false_iff]
  intro hd
  have := isDigit_iff.1 hd
  omega

theorem isBlank_of_isWordStart (h : isWordStart c = true) : isBlank c = false := by
  rw [Bool.eq_false_iff]
  intro hb
  rw [isWordStart_of_isBlank hb] at h
  cases h

theorem isBlank_of_isDigit (h : c.isDigit = true) : isBlank c = false := by
  rw [Bool.eq_false_iff]
  intro hb
  rw [isDigit_of_isBlank hb] at h
  cases h

/-- The characters that are tokens by themselves begin nothing else, but for the slash. -/
theorem eq_of_ofMark? {kind : Kind} (h : Kind.ofMark? c = some kind) :
    isWordStart c = false ∧ c.isDigit = false ∧ isBlank c = false ∧
      kind ≠ .endOfInput ∧ kind ≠ .identifier ∧ kind ≠ .number := by
  unfold Kind.ofMark? at h
  split at h <;> first | (cases h; decide) | cases h

end Characters

theorem takeWhile_append_of_stop {p : Char → Bool} {u v : List Char}
    (h : ∀ c ∈ u, p c = true) (hr : ∀ c ∈ v.head?, p c = false) :
    (u ++ v).takeWhile p = u ∧ (u ++ v).dropWhile p = v := by
  rw [List.takeWhile_append_of_pos h, List.dropWhile_append_of_pos h]
  cases v with
  | nil => simp
  | cons c v =>
    have hc : p c = false := hr c rfl
    simp [hc]

theorem of_mem_takeWhile {p : Char → Bool} {cs : List Char} {c : Char}
    (h : c ∈ cs.takeWhile p) : p c = true :=
  List.all_eq_true.1 List.all_takeWhile c h

theorem head?_dropWhile {p : Char → Bool} {cs : List Char} {c : Char}
    (h : c ∈ (cs.dropWhile p).head?) : p c = false := by
  have := List.head?_dropWhile_not p cs
  rw [Option.mem_def.1 h] at this
  exact this

namespace Piece

/-- What the shape of a piece says about its characters. -/
def WellFormed (p : Piece) : Prop :=
  match p.shape with
  | .word => IsWord p.chars
  | .number => IsNumeral p.chars
  | .blank => p.chars ≠ [] ∧ ∀ c ∈ p.chars, isBlank c = true
  | .comment => ∃ cs, p.chars = '/' :: '/' :: cs ∧ ∀ c ∈ cs, c ≠ '\n'
  | .mark kind => ∃ c, p.chars = [c] ∧ Kind.ofMark? c = some kind

/-- The characters that follow cannot make the piece longer. -/
def EndsBefore (p : Piece) (rest : List Char) : Prop :=
  match p.shape with
  | .word => ∀ c ∈ rest.head?, isWordPart c = false
  | .number => (∀ c ∈ rest.head?, c.isDigit = false) ∧
      (IsDigits p.chars → ∀ c cs, rest = '.' :: c :: cs → c.isDigit = false)
  | .blank => ∀ c ∈ rest.head?, isBlank c = false
  | .comment => ∀ c ∈ rest.head?, c = '\n'
  | .mark _ => p.chars = ['/'] → rest.head? ≠ some '/'

theorem number_spec {c : Char} (hc : c.isDigit = true) (cs : List Char) :
    (number c cs).1.shape = .number ∧ (number c cs).1.WellFormed ∧
      (number c cs).1.EndsBefore (number c cs).2 := by
  have hwhole : IsDigits (c :: cs.takeWhile Char.isDigit) := by
    refine ⟨by simp, fun d hd => ?_⟩
    rcases List.mem_cons.1 hd with rfl | hd
    · exact hc
    · exact of_mem_takeWhile hd
  have hpoint : Char.isDigit '.' = false := by decide
  unfold number
  split
  · next d rest hdrop =>
    split
    · next hd =>
      have hfraction : IsDigits (d :: rest.takeWhile Char.isDigit) := by
        refine ⟨by simp, fun x hx => ?_⟩
        rcases List.mem_cons.1 hx with rfl | hx
        · exact hd
        · exact of_mem_takeWhile hx
      refine ⟨rfl, Or.inr ⟨_, _, hwhole, hfraction, rfl⟩, fun x hx => head?_dropWhile hx, ?_⟩
      intro hdigits
      have := hdigits.2 '.' (by simp)
      rw [hpoint] at this
      cases this
    · next hd =>
      refine ⟨rfl, Or.inl hwhole, ?_, ?_⟩
      · intro x hx
        cases hx
        exact hpoint
      · intro _ x xs h
        cases h
        simpa using hd
  · next hdrop =>
    exact ⟨rfl, Or.inl hwhole, fun x hx => head?_dropWhile hx, fun _ x xs h => absurd h (hdrop x xs)⟩

theorem number_eq {c : Char} {cs rest : List Char} (h : IsNumeral (c :: cs))
    (hr : EndsBefore ⟨.number, c :: cs⟩ rest) : number c (cs ++ rest) = (⟨.number, c :: cs⟩, rest) := by
  obtain ⟨hhead, hpoint⟩ := hr
  rcases h with hdigits | ⟨whole, fraction, hwhole, hfraction, hcs⟩
  · obtain ⟨htake, hdrop⟩ := takeWhile_append_of_stop
      (fun d hd => hdigits.2 d (List.mem_cons_of_mem c hd)) hhead
    unfold number
    rw [htake, hdrop]
    by_cases hfollows : ∃ d ds, rest = '.' :: d :: ds
    · obtain ⟨d, ds, rfl⟩ := hfollows
      simp [hpoint hdigits d ds rfl]
    · split
      · exact absurd ⟨_, _, rfl⟩ hfollows
      · rfl
  · obtain ⟨w, ws, rfl⟩ := List.exists_cons_of_ne_nil hwhole.1
    obtain ⟨f, fs, rfl⟩ := List.exists_cons_of_ne_nil hfraction.1
    obtain ⟨rfl, rfl⟩ : c = w ∧ cs = ws ++ '.' :: f :: fs := by simpa using hcs
    obtain ⟨htake, hdrop⟩ := takeWhile_append_of_stop (p := Char.isDigit) (u := ws)
      (v := '.' :: f :: (fs ++ rest)) (fun d hd => hwhole.2 d (by simp [hd]))
      (by intro d hd; cases hd; decide)
    obtain ⟨htake', hdrop'⟩ := takeWhile_append_of_stop
      (fun d hd => hfraction.2 d (List.mem_cons_of_mem f hd)) hhead
    have happend : ws ++ '.' :: f :: fs ++ rest = ws ++ '.' :: f :: (fs ++ rest) := by simp
    unfold number
    rw [happend, htake, hdrop]
    simp only [hfraction.2 f (by simp), if_true]
    rw [htake', hdrop']
    rfl

/-- What a piece is cut off as, from the shape that its first character has. -/
theorem spec_of_next? {cs rest : List Char} {p : Piece} (h : next? cs = some (p, rest)) :
    p.WellFormed ∧ p.EndsBefore rest := by
  cases cs with
  | nil => cases h
  | cons c cs =>
    replace h : first? c cs = some (p, rest) := h
    unfold first? at h
    split at h
    · next hc =>
      cases h
      exact ⟨⟨c, _, rfl, hc, fun d hd => of_mem_takeWhile hd⟩, fun d hd => head?_dropWhile hd⟩
    · split at h
      · next hc =>
        have hspec := number_spec hc cs
        rw [Option.some.inj h] at hspec
        exact hspec.2
      · split at h
        · next hc =>
          cases h
          refine ⟨⟨by simp, fun d hd => ?_⟩, fun d hd => head?_dropWhile hd⟩
          rcases List.mem_cons.1 hd with rfl | hd
          · exact hc
          · exact of_mem_takeWhile hd
        · split at h
          · next hc =>
            cases h
            obtain ⟨rfl, hhead⟩ := hc
            obtain ⟨ds, rfl⟩ : ∃ ds, cs = '/' :: ds := by
              cases cs with
              | nil => cases hhead
              | cons d ds => cases hhead; exact ⟨ds, rfl⟩
            refine ⟨⟨ds.takeWhile (· != '\n'), by simp, fun d hd => ?_⟩, fun d hd => ?_⟩
            · simpa using of_mem_takeWhile hd
            · simpa using head?_dropWhile hd
          · next hc =>
            obtain ⟨kind, hkind, h⟩ := Option.map_eq_some_iff.1 h
            cases h
            refine ⟨⟨c, rfl, hkind⟩, fun heq hhead => hc ⟨?_, hhead⟩⟩
            exact (List.cons.inj heq).1

/-- A piece that cannot be made longer is cut off whole. -/
theorem next?_of_spec {rest : List Char} {p : Piece} (hw : p.WellFormed) (he : p.EndsBefore rest) :
    next? (p.chars ++ rest) = some (p, rest) := by
  obtain ⟨shape, chars⟩ := p
  cases shape with
  | word =>
    obtain ⟨c, cs, rfl, hc, hcs⟩ := hw
    obtain ⟨htake, hdrop⟩ := takeWhile_append_of_stop hcs he
    show first? c (cs ++ rest) = _
    rw [first?, if_pos hc, htake, hdrop]
  | number =>
    obtain ⟨c, cs, rfl, hc⟩ := head_of_isNumeral hw
    show first? c (cs ++ rest) = _
    rw [first?, if_neg (by simp [isWordStart_of_isDigit hc]), if_pos hc, number_eq hw he]
  | blank =>
    obtain ⟨hne, hall⟩ := hw
    obtain ⟨c, cs, rfl⟩ := List.exists_cons_of_ne_nil hne
    have hc : isBlank c = true := hall c (by simp)
    obtain ⟨htake, hdrop⟩ := takeWhile_append_of_stop
      (fun d hd => hall d (List.mem_cons_of_mem c hd)) he
    show first? c (cs ++ rest) = _
    rw [first?, if_neg (by simp [isWordStart_of_isBlank hc]),
      if_neg (by simp [isDigit_of_isBlank hc]), if_pos hc, htake, hdrop]
  | comment =>
    obtain ⟨cs, rfl, hcs⟩ := hw
    obtain ⟨htake, hdrop⟩ := takeWhile_append_of_stop (p := (· != '\n')) (u := '/' :: cs)
      (v := rest) (by simpa using hcs) (fun d hd => by simp [he d hd])
    show first? '/' ('/' :: cs ++ rest) = _
    rw [first?, if_neg (by decide), if_neg (by decide), if_neg (by decide), if_pos ⟨rfl, rfl⟩,
      htake, hdrop]
  | mark kind =>
    obtain ⟨c, rfl, hkind⟩ := hw
    obtain ⟨hword, hdigit, hblank, _⟩ := eq_of_ofMark? hkind
    have hslash : ¬ (c = '/' ∧ rest.head? = some '/') := fun h => he (by rw [h.1]) h.2
    show first? c ([] ++ rest) = _
    rw [List.nil_append, first?, if_neg (by simp [hword]), if_neg (by simp [hdigit]),
      if_neg (by simp [hblank]), if_neg hslash, hkind]
    rfl

end Piece
end LetArith
