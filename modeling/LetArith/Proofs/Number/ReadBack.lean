import LetArith.Number.Numeral
import LetArith.Proofs.Source.Maximal

/-! Doubles written as text read back as themselves.  The digits chosen for a number round to
it, be they few or all, and their text is a numeral that denotes them; every numeral denotes a
number without a sign. -/

namespace LetArith

namespace Decimal

theorem ofDigitChars_lastDigits (width n start : Nat) :
    Nat.ofDigitChars 10 (lastDigits width n) start = start * 10 ^ width + n % 10 ^ width := by
  induction width generalizing n with
  | zero => simp [lastDigits, Nat.mod_one]
  | succ width ih =>
    have hlt : n % 10 < 10 := Nat.mod_lt n (by decide)
    have hmod : n % 10 ^ (width + 1) = n % 10 + 10 * (n / 10 % 10 ^ width) := by
      rw [Nat.pow_succ', Nat.mod_mul]
    have hmul : start * 10 ^ (width + 1) = 10 * (start * 10 ^ width) := by
      rw [Nat.pow_succ', Nat.mul_left_comm]
    rw [lastDigits, Nat.ofDigitChars_append, ih,
      Nat.ofDigitChars_cons_digitChar_of_lt_ten hlt, Nat.ofDigitChars_nil, hmod, hmul]
    omega

theorem isDigit_of_mem_lastDigits {width n : Nat} {c : Char} (h : c ∈ lastDigits width n) :
    c.isDigit = true := by
  induction width generalizing n with
  | zero => cases h
  | succ width ih =>
    rcases List.mem_append.1 h with h | h
    · exact ih h
    · rw [List.mem_singleton.1 h, Nat.isDigit_digitChar]
      exact decide_eq_true (Nat.mod_lt n (by decide))

theorem isDigits_toDigits (n : Nat) : IsDigits (Nat.toDigits 10 n) :=
  ⟨Nat.toDigits_ne_nil, fun _ hc => Nat.isDigit_of_mem_toDigits (by decide) (by decide) hc⟩

theorem isDigits_lastDigits (width n : Nat) : IsDigits (lastDigits (width + 1) n) := by
  refine ⟨fun h => ?_, fun _ hc => isDigit_of_mem_lastDigits hc⟩
  have hl := congrArg List.length h
  simp at hl

theorem isNumeral_text (d : Decimal) : IsNumeral d.text := by
  obtain ⟨digits, exponent⟩ := d
  cases exponent with
  | ofNat zeros => exact Or.inl (isDigits_toDigits _)
  | negSucc places =>
    exact Or.inr ⟨_, _, isDigits_toDigits _, isDigits_lastDigits places _, rfl⟩

theorem ofText?_of_digits {cs : List Char} (h : IsDigits cs) :
    ofText? cs = some ⟨Nat.ofDigitChars 10 cs 0, 0⟩ := by
  obtain ⟨htake, hdrop⟩ := takeWhile_append_of_stop (v := []) h.2 (by simp)
  rw [List.append_nil] at htake hdrop
  unfold ofText?
  rw [htake, hdrop]
  simp [h.1, exponent?]

theorem ofText?_of_point {whole fraction : List Char} (hw : IsDigits whole)
    (hf : IsDigits fraction) :
    ofText? (whole ++ '.' :: fraction) =
      some ⟨Nat.ofDigitChars 10 (whole ++ fraction) 0, 0 - fraction.length⟩ := by
  obtain ⟨htake, hdrop⟩ := takeWhile_append_of_stop (p := Char.isDigit) (v := '.' :: fraction)
    hw.2 (by intro c hc; cases hc; decide)
  obtain ⟨htake', hdrop'⟩ := takeWhile_append_of_stop (v := []) hf.2 (by simp)
  rw [List.append_nil] at htake' hdrop'
  unfold ofText?
  rw [htake, hdrop]
  simp [htake', hdrop', hw.1, exponent?]

/-- A decimal as its text denotes it: zeros behind the digits are digits too. -/
def written (d : Decimal) : Decimal :=
  match d.exponent with
  | .ofNat zeros => ⟨d.digits * 10 ^ zeros, 0⟩
  | .negSucc _ => d

theorem ofText?_text (d : Decimal) : ofText? d.text = some d.written := by
  obtain ⟨digits, exponent⟩ := d
  cases exponent with
  | ofNat zeros =>
    show ofText? (Nat.toDigits 10 (digits * 10 ^ zeros)) = _
    rw [ofText?_of_digits (isDigits_toDigits _), Nat.ofDigitChars_ten_toDigits]
    rfl
  | negSucc places =>
    show ofText? (Nat.toDigits 10 (digits / 10 ^ (places + 1)) ++
      '.' :: lastDigits (places + 1) (digits % 10 ^ (places + 1))) = _
    rw [ofText?_of_point (isDigits_toDigits _) (isDigits_lastDigits places _),
      Nat.ofDigitChars_append, Nat.ofDigitChars_ten_toDigits, ofDigitChars_lastDigits,
      Nat.mod_mod, Nat.div_add_mod', length_lastDigits]
    have hexp : (0 : Int) - ((places + 1 : Nat) : Int) = Int.negSucc places := by omega
    rw [hexp]
    rfl

end Decimal

namespace Binary64

/-- What is a whole number of least magnitudes, with a significand of the right size, is
rounded to itself. -/
theorem nearestRank_of_exact {n d m k : Nat} (hd : 0 < d) (hm : m < 2 ^ 53)
    (hk : k = 0 ∨ 2 ^ 52 ≤ m) (hn : n = m * 2 ^ k * d) :
    nearestRank n d = k * 2 ^ 52 + m := by
  have hquotient : n / d = m * 2 ^ k := by rw [hn, Nat.mul_div_cancel _ hd]
  -- a significand of full size gives the scale away, and a smaller one has none
  have hscale : (m * 2 ^ k).log2 - 52 = k := by
    rcases hk with rfl | hk
    · by_cases h0 : m = 0
      · simp [h0]
      · have hlog : m.log2 < 53 := (Nat.log2_lt h0).2 hm
        simp
        omega
    · have hlow : 2 ^ (52 + k) ≤ m * 2 ^ k := by
        rw [Nat.pow_add]
        exact Nat.mul_le_mul_right _ hk
      have hhigh : m * 2 ^ k < 2 ^ (52 + k + 1) := by
        rw [show 52 + k + 1 = 53 + k by omega, Nat.pow_add]
        exact Nat.mul_lt_mul_of_pos_right hm (Nat.two_pow_pos k)
      have hne : m * 2 ^ k ≠ 0 := by
        have := Nat.two_pow_pos (52 + k)
        omega
      have hlog := (Nat.log2_eq_iff hne).2 ⟨hlow, hhigh⟩
      omega
  have hround : roundDiv n (d * 2 ^ k) = m := by
    rw [hn, Nat.mul_assoc, Nat.mul_comm (2 ^ k) d]
    exact roundDiv_mul_self m (Nat.mul_pos hd (Nat.two_pow_pos k))
  unfold nearestRank
  simp only [hquotient, hscale, hround]

theorem ofRatio_of_exact {negative : Bool} {num den : Nat} (rank : Rank) (hd : 0 < den)
    (h : num * 2 ^ 1074 = significand rank * 2 ^ scale rank * den) :
    ofRatio negative num den = finite negative rank := by
  have hk : scale rank = 0 ∨ 2 ^ 52 ≤ significand rank := by
    by_cases h0 : scale rank = 0
    · exact Or.inl h0
    · exact Or.inr (le_significand (Nat.pos_of_ne_zero h0))
  have hrank : nearestRank (num * 2 ^ 1074) den = rank := by
    rw [nearestRank_of_exact hd (significand_lt rank) hk h]
    exact scale_mul_add_significand rank
  unfold ofRatio
  simp only [hrank]
  exact dif_pos rank.isLt

theorem two_pow_mul {a b c : Nat} (h : a + b = c) : 2 ^ a * 2 ^ b = 2 ^ c := by
  rw [← Nat.pow_add, h]

/-- The expansion is never so small that its parts tell its rounding. -/
theorem log2_expansion {m n : Nat} (hm : m ≠ 0) (hn : n ≤ 1074) :
    3 * n < (m * 5 ^ n).log2 + 1077 := by
  have hfive : 5 ^ n ≠ 0 := Nat.ne_of_gt (Nat.pow_pos (by decide))
  have hlow : 2 ^ (2 * n) ≤ m * 5 ^ n := by
    calc 2 ^ (2 * n) = 4 ^ n := by rw [Nat.pow_mul]
      _ ≤ 5 ^ n := Nat.pow_le_pow_left (by decide) n
      _ ≤ m * 5 ^ n := Nat.le_mul_of_pos_left _ (Nat.pos_of_ne_zero hm)
  have hlog := (Nat.le_log2 (Nat.mul_ne_zero hm hfive)).2 hlow
  omega

theorem eq_zero_of_significand {rank : Nat} (h : significand rank = 0) : rank = 0 := by
  have hscale : scale rank = 0 := by
    refine Nat.eq_zero_of_not_pos (fun hpos => ?_)
    have := le_significand hpos
    omega
  have hrank := scale_mul_add_significand rank
  rw [hscale, h] at hrank
  exact hrank.symm

/-- All digits together denote the number. -/
theorem ofDecimal_expansion (negative : Bool) (rank : Rank) :
    ofDecimal negative (expansion rank) = finite negative rank := by
  by_cases h0 : significand rank = 0
  · have hrank : rank = ⟨0, by decide⟩ := Fin.ext (eq_zero_of_significand h0)
    have hdigits : (expansion rank).digits = 0 := by
      by_cases hk : 1074 ≤ scale rank <;> simp [expansion, hk, h0]
    unfold ofDecimal
    simp only [hdigits, if_true]
    rw [hrank]
  by_cases hk : 1074 ≤ scale rank
  · have hexp : expansion rank = ⟨significand rank * 2 ^ (scale rank - 1074), Int.ofNat 0⟩ := by
      simp [expansion, hk]
    have hne : significand rank * 2 ^ (scale rank - 1074) ≠ 0 :=
      Nat.mul_ne_zero h0 (Nat.ne_of_gt (Nat.two_pow_pos _))
    rw [hexp, ofDecimal]
    simp only [hne, if_false]
    rw [if_neg (by decide)]
    apply ofRatio_of_exact rank (by decide)
    have hpow := two_pow_mul (Nat.sub_add_cancel hk)
    rw [Nat.pow_zero, Nat.mul_one, Nat.mul_one, Nat.mul_assoc, hpow]
  · obtain ⟨e, he⟩ : ∃ e, 1074 - scale rank = e + 1 := ⟨1074 - scale rank - 1, by omega⟩
    have hexp : expansion rank = ⟨significand rank * 5 ^ (e + 1), Int.negSucc e⟩ := by
      simp only [expansion, if_neg hk, he]
      rfl
    have hne : significand rank * 5 ^ (e + 1) ≠ 0 :=
      Nat.mul_ne_zero h0 (Nat.ne_of_gt (Nat.pow_pos (by decide)))
    have hsize := log2_expansion h0 (n := e + 1) (by omega)
    rw [hexp, ofDecimal]
    simp only [hne, if_false]
    rw [if_neg (by omega)]
    apply ofRatio_of_exact rank (Nat.pow_pos (by decide))
    have hsum : scale rank + (e + 1) = 1074 := by omega
    have hpow := two_pow_mul hsum
    have hten : 10 ^ (e + 1) = 5 ^ (e + 1) * 2 ^ (e + 1) := by rw [← Nat.mul_pow]
    rw [← hpow, hten]
    ac_rfl

theorem ofDecimal_shortest (rank : Rank) : ofDecimal false (shortest rank) = finite false rank := by
  unfold shortest
  cases h : shortest? rank with
  | none => exact ofDecimal_expansion false rank
  | some d =>
    have hback := readsBack_of_shortest? h
    simpa [readsBack] using hback

theorem negate_ofRatio (negative : Bool) (num den : Nat) :
    (ofRatio negative num den).negate = ofRatio (!negative) num den := by
  unfold ofRatio
  dsimp only
  split <;> rfl

theorem negate_ofDecimal (negative : Bool) (d : Decimal) :
    (ofDecimal negative d).negate = ofDecimal (!negative) d := by
  unfold ofDecimal
  dsimp only
  split
  · rfl
  split
  · split
    · rfl
    · exact negate_ofRatio negative _ _
  · split
    · rfl
    · exact negate_ofRatio negative _ _

theorem ofDecimal_shortest_signed (negative : Bool) (rank : Rank) :
    ofDecimal negative (shortest rank) = finite negative rank := by
  cases negative with
  | false => exact ofDecimal_shortest rank
  | true =>
    rw [← Bool.not_false, ← negate_ofDecimal, ofDecimal_shortest]
    rfl

theorem ofDecimal_cases (negative : Bool) (d : Decimal) :
    ofDecimal negative d = infinite negative ∨ ∃ rank, ofDecimal negative d = finite negative rank := by
  have hratio : ∀ num den, ofRatio negative num den = infinite negative ∨
      ∃ rank, ofRatio negative num den = finite negative rank := by
    intro num den
    unfold ofRatio
    by_cases h : nearestRank (num * 2 ^ 1074) den < rankCount
    · exact Or.inr ⟨_, dif_pos h⟩
    · exact Or.inl (dif_neg h)
  unfold ofDecimal
  by_cases h0 : d.digits = 0
  · exact Or.inr ⟨_, if_pos h0⟩
  simp only [h0, if_false]
  cases d.exponent with
  | ofNat e =>
    by_cases he : 309 ≤ e
    · exact Or.inl (if_pos he)
    · simp only [he, if_false]
      exact hratio _ _
  | negSucc e =>
    by_cases he : d.digits.log2 + 1077 ≤ 3 * (e + 1)
    · exact Or.inr ⟨_, if_pos he⟩
    · simp only [he, if_false]
      exact hratio _ _

/-- Zeros written behind the digits leave a finite number as it is. -/
theorem ofDecimal_written {negative : Bool} {d : Decimal}
    (h : (ofDecimal negative d).isFinite = true) :
    ofDecimal negative d.written = ofDecimal negative d := by
  obtain ⟨digits, exponent⟩ := d
  cases exponent with
  | negSucc e => rfl
  | ofNat e =>
    show ofDecimal negative ⟨digits * 10 ^ e, Int.ofNat 0⟩ = _
    have hten : 10 ^ e ≠ 0 := Nat.ne_of_gt (Nat.pow_pos (by decide))
    by_cases h0 : digits = 0
    · simp [ofDecimal, h0]
    by_cases he : 309 ≤ e
    · simp [ofDecimal, h0, he, isFinite] at h
    · have hne : digits * 10 ^ e ≠ 0 := Nat.mul_ne_zero h0 hten
      simp only [ofDecimal, h0, he, hne, if_false, Nat.pow_zero, Nat.mul_one]
      exact if_neg (by decide)

section Text

variable {c : Char} {cs : List Char} {s : String} {rank : Rank}

theorem toLower_of_isDigit (h : c.isDigit = true) : c.toLower = c := by
  have hn := isDigit_iff.1 h
  have hu : ¬ c.isUpper = true := by
    rw [isUpper_iff]
    omega
  exact dif_neg (fun hupper => hu (isUpper_iff.2 hupper))

theorem ofText?_of_isNumeral (h : IsNumeral s.toList) :
    ofText? s = (Decimal.ofText? s.toList).map (ofDecimal false) := by
  obtain ⟨c, ds, hcs, hc⟩ := head_of_isNumeral h
  have hne : ∀ x : Char, x.isDigit = false → c ≠ x := by
    rintro x hx rfl
    rw [hx] at hc
    cases hc
  have hmagnitude : magnitude? false (c :: ds) = (Decimal.ofText? (c :: ds)).map (ofDecimal false) := by
    simp [magnitude?, toLower_of_isDigit hc, hne 'i' (by decide), hne 'n' (by decide)]
  unfold ofText?
  rw [hcs, ← hmagnitude]
  split
  · next heq => exact absurd (List.cons.inj heq).1 (hne '+' (by decide))
  · next heq => exact absurd (List.cons.inj heq).1 (hne '-' (by decide))
  · rfl

theorem eq_of_finiteOfText? {x : Binary64} (h : IsNumeral s.toList)
    (hx : finiteOfText? s = some x) : ∃ rank, x = finite false rank := by
  obtain ⟨hx, hfinite⟩ := Option.filter_eq_some_iff.1 hx
  rw [ofText?_of_isNumeral h] at hx
  obtain ⟨d, _, rfl⟩ := Option.map_eq_some_iff.1 hx
  rcases ofDecimal_cases false d with hd | hd
  · rw [hd] at hfinite
    cases hfinite
  · exact hd

theorem toList_text (rank : Rank) : (text (finite false rank)).toList = (shortest rank).text := by
  simp [text, sign]

theorem isNumeral_text (rank : Rank) : IsNumeral (text (finite false rank)).toList := by
  rw [toList_text]
  exact Decimal.isNumeral_text _

/-- A finite number without a sign is denoted by its text. -/
theorem finiteOfText?_text (rank : Rank) :
    finiteOfText? (text (finite false rank)) = some (finite false rank) := by
  have hshortest := ofDecimal_shortest rank
  have hwritten : ofDecimal false (shortest rank).written = finite false rank := by
    rw [ofDecimal_written (by rw [hshortest]; rfl), hshortest]
  have htext : ofText? (text (finite false rank)) = some (finite false rank) := by
    rw [ofText?_of_isNumeral (isNumeral_text rank), toList_text, Decimal.ofText?_text,
      Option.map_some, hwritten]
  rw [finiteOfText?, htext]
  rfl

end Text
end Binary64
end LetArith
