import LetArith.Proofs.Source.Placement
import LetArith.Proofs.Source.Joining

/-! What separates lexemes whatever comes after it.  A gap in which every comment has its line
break is one in front of anything; any other ends in a comment that is still open, and stands only
in front of a line break or at the end of the text. -/

namespace LetArith

/-- White space and comments, each with the line break that ends it. -/
inductive Separator : List Char → Prop where
  | nil : Separator []
  | blank {c : Char} {cs : List Char} (blank : isBlank c = true) (others : Separator cs) :
      Separator (c :: cs)
  | comment {line cs : List Char} (inside : ∀ c ∈ line, c ≠ '\n') (others : Separator cs) :
      Separator ('/' :: '/' :: (line ++ '\n' :: cs))

/-- The characters end in a comment that no line break ends. -/
def EndsInComment (cs : List Char) : Prop :=
  ∃ before line, cs = before ++ '/' :: '/' :: line ∧ ∀ c ∈ line, c ≠ '\n'

namespace EndsInComment

variable {u v : List Char}

theorem append_left (h : EndsInComment v) : EndsInComment (u ++ v) := by
  obtain ⟨before, line, rfl, hline⟩ := h
  exact ⟨u ++ before, line, (List.append_assoc ..).symm, hline⟩

/-- A comment that is open at the end begins in the second part, or in the first one, or with a
character of each. -/
theorem append_cases (h : EndsInComment (u ++ v)) :
    EndsInComment v ∨ (∀ c ∈ v, c ≠ '\n') ∧
      (EndsInComment u ∨ (∃ before, u = before ++ ['/']) ∧ v.head? = some '/') := by
  obtain ⟨before, line, hcs, hline⟩ := h
  rcases List.append_eq_append_iff.1 hcs with ⟨x, rfl, rfl⟩ | ⟨x, rfl, hx⟩
  · exact .inl ⟨x, line, rfl, hline⟩
  match x, hx with
  | [], hx => exact .inl ⟨[], line, hx.symm, hline⟩
  | [_], hx =>
    cases hx
    exact .inr ⟨by simpa using hline, .inr ⟨⟨before, rfl⟩, rfl⟩⟩
  | _ :: _ :: y, hx =>
    cases hx
    refine .inr ⟨fun c hc => hline c (by simp [hc]), .inl ⟨before, y, rfl, ?_⟩⟩
    exact fun c hc => hline c (by simp [hc])

theorem of_cons {c : Char} (h : EndsInComment (c :: v)) (hc : c ≠ '/') : EndsInComment v := by
  obtain ⟨before, line, hcs, hline⟩ := h
  cases before with
  | nil => exact absurd (List.cons.inj hcs).1 hc
  | cons _ before => exact ⟨before, line, (List.cons.inj hcs).2, hline⟩

end EndsInComment

theorem ne_slash_of_isBlank {c : Char} (h : isBlank c = true) : c ≠ '/' := by
  rintro rfl
  exact absurd h (by decide)

theorem isWordPart_eq_false_iff {c : Char} :
    isWordPart c = false ↔ isWordStart c = false ∧ c.isDigit = false := by
  unfold isWordPart isWordStart Char.isAlphanum
  cases c.isAlpha <;> cases c.isDigit <;> simp

theorem not_endsInComment_nil : ¬ EndsInComment [] := by
  rintro ⟨before, line, h, _⟩
  simp at h

namespace Separator

variable {cs : List Char}

theorem gap (h : Separator cs) (rest : List Char) : Gap cs rest := by
  induction h with
  | nil => exact .nil
  | blank hblank _ ih => exact .blank hblank ih
  | comment inside _ ih => exact .comment inside (by simp) (.blank (by decide) ih)

theorem head (h : Separator cs) :
    ∀ c ∈ cs.head?, isBlank c = true ∨ c = '/' := by
  intro c hc
  cases h with
  | nil => cases hc
  | blank hblank _ =>
    cases hc
    exact .inl hblank
  | comment _ _ =>
    cases hc
    exact .inr rfl

theorem isBlank_of_last (h : Separator cs) {before : List Char} {c : Char}
    (hc : cs = before ++ [c]) : isBlank c = true := by
  induction h generalizing before with
  | nil => simp at hc
  | @blank d cs hblank _ ih =>
    cases before with
    | nil =>
      cases hc
      exact hblank
    | cons _ before => exact ih (List.cons.inj hc).2
  | @comment line cs _ _ ih =>
    rcases List.eq_nil_or_concat cs with rfl | ⟨cs, d, rfl⟩
    · have hbreak : '/' :: '/' :: (line ++ ['\n']) = ('/' :: '/' :: line) ++ ['\n'] := rfl
      rw [hbreak] at hc
      obtain ⟨_, hc⟩ := List.append_inj' hc rfl
      cases hc
      decide
    · rw [List.concat_eq_append] at hc ih
      have hlast : '/' :: '/' :: (line ++ '\n' :: (cs ++ [d])) =
          ('/' :: '/' :: (line ++ '\n' :: cs)) ++ [d] := by simp
      rw [hlast] at hc
      obtain ⟨_, hc⟩ := List.append_inj' hc rfl
      cases hc
      exact ih rfl

theorem not_endsInComment (h : Separator cs) : ¬ EndsInComment cs := by
  induction h with
  | nil => exact not_endsInComment_nil
  | blank hblank _ ih => exact fun hopen => ih (hopen.of_cons (ne_slash_of_isBlank hblank))
  | @comment line cs _ _ ih =>
    intro hopen
    have hparts : '/' :: '/' :: (line ++ '\n' :: cs) = ('/' :: '/' :: line) ++ '\n' :: cs := rfl
    rw [hparts] at hopen
    rcases hopen.append_cases with hopen | ⟨hline, _⟩
    · exact ih (hopen.of_cons (by decide))
    · exact hline '\n' (by simp) rfl

end Separator

/-- A gap separates lexemes, or it ends in a comment that is open up to a line break. -/
theorem Gap.separator_or_open {gap rest : List Char} (h : Gap gap rest) :
    Separator gap ∨ EndsInComment gap ∧ ∀ c ∈ rest.head?, c = '\n' := by
  induction h with
  | nil => exact .inl .nil
  | @blank c cs _ hblank _ ih =>
    rcases ih with hs | ⟨hopen, hrest⟩
    · exact .inl (.blank hblank hs)
    · exact .inr ⟨hopen.append_left (u := [c]), hrest⟩
  | @comment line cs rest inside ends _ ih =>
    cases cs with
    | nil => exact .inr ⟨⟨[], line, by simp, inside⟩, ends⟩
    | cons d ds =>
      obtain rfl : d = '\n' := ends d rfl
      rcases ih with hs | ⟨hopen, hrest⟩
      · cases hs with
        | blank _ others => exact .inl (.comment inside others)
      · exact .inr ⟨hopen.append_left (u := '/' :: '/' :: line), hrest⟩

/-- In front of anything but a line break all comments have ended. -/
theorem Gap.separator {gap rest : List Char} (h : Gap gap rest)
    (hrest : ∃ c ∈ rest.head?, c ≠ '\n') : Separator gap := by
  rcases h.separator_or_open with hs | ⟨_, hbreak⟩
  · exact hs
  · obtain ⟨c, hc, hne⟩ := hrest
    exact absurd (hbreak c hc) hne

def Kind.words : List Kind := [identifier, letKeyword, constKeyword]

namespace Lexeme

theorem mem_marks_of_toList {l : Lexeme} {c : Char} (hchars : l.2.toList = [c])
    (hkind : Kind.ofMark? c = some l.1) : l ∈ marks := by
  have htext : String.ofList [c] = l.2 := by rw [← hchars, String.ofList_toList]
  have hmem := (mem_marks_of_ofMark? hkind).1
  rwa [htext] at hmem

theorem Spelled.cases {l : Lexeme} (h : l.Spelled) :
    l.1 ∈ Kind.words ∧ IsWord l.2.toList ∨ l.1 = .number ∧ IsNumeral l.2.toList ∨
      ∃ c, l.2.toList = [c] ∧ Kind.ofMark? c = some l.1 := by
  obtain ⟨kind, s⟩ := l
  cases kind with
  | endOfInput => exact h.elim
  | identifier => exact .inl ⟨List.mem_cons_self, h.1⟩
  | number => exact .inr (.inl ⟨rfl, h⟩)
  | letKeyword =>
    cases h
    exact .inl ⟨by decide, 'l', ['e', 't'], rfl, rfl, List.all_eq_true.1 rfl⟩
  | constKeyword =>
    cases h
    exact .inl ⟨by decide, 'c', ['o', 'n', 's', 't'], rfl, rfl, List.all_eq_true.1 rfl⟩
  | _ =>
    obtain ⟨c, rfl, hkind⟩ := h
    exact .inr (.inr ⟨c, String.toList_ofList, hkind⟩)

theorem Spelled.head {l : Lexeme} (h : l.Spelled) :
    ∃ c cs, l.2.toList = c :: cs ∧ isBlank c = false := by
  rcases h.cases with ⟨_, c, cs, hchars, hc, _⟩ | ⟨_, hnumeral⟩ | ⟨c, hchars, hkind⟩
  · exact ⟨c, cs, hchars, isBlank_of_isWordStart hc⟩
  · obtain ⟨c, cs, hchars, hc⟩ := head_of_isNumeral hnumeral
    exact ⟨c, cs, hchars, isBlank_of_isDigit hc⟩
  · exact ⟨c, [], hchars, (eq_of_ofMark? hkind).2.2.1⟩

theorem Spelled.eq_slash {l : Lexeme} (h : l.Spelled) (hslash : '/' ∈ l.2.toList) :
    l.2.toList = ['/'] ∧ l.1 = .slash := by
  rcases h.cases with ⟨_, c, cs, hchars, hc, hcs⟩ | ⟨_, hnumeral⟩ | ⟨c, hchars, hkind⟩
  · rw [hchars] at hslash
    rcases List.mem_cons.1 hslash with rfl | hslash
    · exact absurd hc (by decide)
    · exact absurd (hcs _ hslash) (by decide)
  · rcases hnumeral with hdigits | ⟨whole, fraction, hwhole, hfraction, hchars⟩
    · exact absurd (hdigits.2 _ hslash) (by decide)
    · rw [hchars, List.mem_append, List.mem_cons] at hslash
      rcases hslash with hslash | hslash | hslash
      · exact absurd (hwhole.2 _ hslash) (by decide)
      · exact absurd hslash (by decide)
      · exact absurd (hfraction.2 _ hslash) (by decide)
  · rw [hchars, List.mem_singleton] at hslash
    subst hslash
    exact ⟨hchars, (Option.some.inj hkind).symm⟩

theorem Spelled.not_endsInComment {l : Lexeme} (h : l.Spelled) : ¬ EndsInComment l.2.toList := by
  rintro ⟨before, line, hchars, _⟩
  have hone := (h.eq_slash (by simp [hchars])).1
  rw [hchars] at hone
  have hlength := congrArg List.length hone
  simp at hlength
  omega

end Lexeme

end LetArith
