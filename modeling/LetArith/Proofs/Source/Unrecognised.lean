import LetArith.Proofs.Source.Separator

/-! Texts that cannot be scanned.  What stands in front of the character at which the scanner stops
is a text of its own that can be scanned: it leaves no comment open, and no number that the
character could go on with. -/

namespace LetArith

/-- The last of the tokens is a number without a point, and the text ends where it does. -/
def EndsInWhole (cs : List Char) (ts : List Token) : Prop :=
  ∃ us t before, ts = us ++ [t] ∧ t.kind = .number ∧ IsDigits t.text.toList ∧
    cs = before ++ t.text.toList

theorem EndsInWhole.append_left {u cs : List Char} {t : Token} {ts : List Token}
    (h : EndsInWhole cs ts) : EndsInWhole (u ++ cs) (t :: ts) := by
  obtain ⟨us, last, before, rfl, hk, hdigits, rfl⟩ := h
  exact ⟨t :: us, last, u ++ before, rfl, hk, hdigits, (List.append_assoc ..).symm⟩

theorem Kind.ofMark?_eq_none_iff {c : Char} :
    ofMark? c = none ↔ c ∉ ['(', ')', '=', ';', '+', '-', '*', '/', '%'] := by
  unfold ofMark?
  split <;> simp_all

theorem Piece.next?_eq_none_iff {c : Char} {cs : List Char} :
    next? (c :: cs) = none ↔ isBlank c = false ∧ isWordPart c = false ∧
      c ∉ ['(', ')', '=', ';', '+', '-', '*', '/', '%'] := by
  rw [next?_cons_eq_none_iff, isWordPart_eq_false_iff, Kind.ofMark?_eq_none_iff]
  constructor
  · rintro ⟨hword, hdigit, hblank, hmark⟩
    exact ⟨hblank, ⟨hword, hdigit⟩, hmark⟩
  · rintro ⟨hblank, ⟨hword, hdigit⟩, hmark⟩
    exact ⟨hword, hdigit, hblank, hmark⟩

/-! What is laid out in front of more characters is laid out without them. -/

theorem Gap.of_append {gap cs rest : List Char} (h : Gap gap (cs ++ rest)) : Gap gap cs := by
  generalize hr : cs ++ rest = r at h
  induction h with
  | nil => exact .nil
  | blank hblank _ ih => exact .blank hblank (ih hr)
  | comment inside ends _ ih =>
    subst hr
    refine .comment inside (fun c hc => ends c ?_) (ih rfl)
    rw [← List.append_assoc]
    exact List.mem_head?_append_of_mem_head? hc

theorem Lexeme.Longest.of_append {l : Lexeme} {cs rest : List Char} (h : l.Longest (cs ++ rest)) :
    l.Longest cs := by
  cases h with
  | word chars ends =>
    exact .word chars (fun c hc => ends c (List.mem_head?_append_of_mem_head? hc))
  | whole chars ends point =>
    refine .whole chars (fun c hc => ends c (List.mem_head?_append_of_mem_head? hc)) ?_
    rintro c ds rfl
    exact point c (ds ++ rest) rfl
  | fraction before after chars ends =>
    exact .fraction before after chars
      (fun c hc => ends c (List.mem_head?_append_of_mem_head? hc))
  | mark hmark slash =>
    exact .mark hmark (fun hk hc => slash hk (List.mem_head?_append_of_mem_head? hc))

namespace Laid

variable {file : String} {offset : Nat} {cs rest : List Char} {ts : List Token}

theorem nil_of_rest (h : Laid file offset cs ts rest) : Laid file offset cs ts [] := by
  induction h with
  | @gap offset gap rest skips =>
    have hgap : Gap gap ([] ++ rest) := skips
    exact .gap hgap.of_append
  | @token offset gap cs rest l ts skips longest _ ih =>
    have hgap : Gap gap (l.2.toList ++ cs ++ [] ++ rest) := by rwa [List.append_nil]
    have hlongest : l.Longest (cs ++ [] ++ rest) := by rwa [List.append_nil]
    exact .token hgap.of_append hlongest.of_append ih

theorem tokens_eq_nil (h : Laid file offset [] ts rest) : ts = [] := by
  generalize hcs : [] = cs at h
  cases h with
  | gap => rfl
  | token _ longest _ =>
    simp only [List.nil_eq, List.append_eq_nil_iff] at hcs
    exact absurd hcs.1.2 longest.toList_ne_nil

end Laid

namespace Lexeme.Longest

variable {l : Lexeme} {rest : List Char}

theorem slash_ends (h : l.Longest rest) (hk : l.1 = .slash) : rest.head? ≠ some '/' := by
  cases h with
  | word => split_ifs at hk
  | whole => cases hk
  | fraction => cases hk
  | mark _ slash => exact slash hk

theorem number_ends (h : l.Longest rest) (hk : l.1 = .number) (hdigits : IsDigits l.2.toList) :
    ∀ c cs, rest = '.' :: c :: cs → c.isDigit = false := by
  cases h with
  | word => split_ifs at hk
  | whole _ _ point => exact point
  | fraction _ _ chars _ => exact absurd (hdigits.2 '.' (by simp [chars])) (by decide)
  | mark hmark _ =>
    obtain ⟨c, _, hkind⟩ := ofMark?_of_mem_marks hmark
    exact absurd hk (eq_of_ofMark? hkind).2.2.2.2.2

end Lexeme.Longest

namespace Laid

variable {file : String} {offset : Nat} {cs rest : List Char} {ts : List Token}

theorem separator_of_token {gap : List Char} {l : Lexeme} (h : Gap gap (l.2.toList ++ rest))
    (hl : l.Spelled) : Separator gap := by
  obtain ⟨c, ds, hchars, hblank⟩ := hl.head
  refine h.separator ⟨c, by simp [hchars], ?_⟩
  rintro rfl
  exact absurd hblank (by decide)

theorem not_endsInComment (h : Laid file offset cs ts rest) (hrest : ∃ c ∈ rest.head?, c ≠ '\n') :
    ¬ EndsInComment cs := by
  induction h with
  | gap skips => exact (skips.separator hrest).not_endsInComment
  | @token offset gap cs rest l ts skips longest _ ih =>
    have hspelled := longest.spelled
    rw [List.append_assoc] at skips
    have hgap := separator_of_token skips hspelled
    intro hopen
    rcases hopen.append_cases with hopen | ⟨_, hopen | ⟨⟨before, hbefore⟩, hhead⟩⟩
    · exact ih hrest hopen
    · rcases hopen.append_cases with hopen | ⟨_, hopen | ⟨⟨before, hbefore⟩, _⟩⟩
      · exact hspelled.not_endsInComment hopen
      · exact hgap.not_endsInComment hopen
      · exact absurd (hgap.isBlank_of_last hbefore) (by decide)
    · -- the lexeme is a slash, and then no other one follows it
      have hlast := congrArg List.getLast? hbefore
      rw [List.getLast?_append_of_ne_nil _ longest.toList_ne_nil, List.getLast?_concat] at hlast
      have hslash := (hspelled.eq_slash (List.mem_of_getLast? hlast)).2
      refine longest.slash_ends hslash ?_
      exact List.mem_head?_append_of_mem_head? hhead

theorem last {us : List Token} {t : Token} (h : Laid file offset cs (us ++ [t]) rest) :
    ∃ before gap, cs = before ++ t.text.toList ++ gap ∧ Gap gap rest ∧
      t.lexeme.Longest (gap ++ rest) := by
  generalize hts : us ++ [t] = ts at h
  induction h generalizing us with
  | gap => simp at hts
  | @token offset gap cs rest l ts skips longest others ih =>
    cases us with
    | nil =>
      cases hts
      cases others with
      | gap skips' => exact ⟨gap, cs, rfl, skips', longest⟩
    | cons u us =>
      obtain ⟨before, gap', rfl, hgap, hlongest⟩ := ih (List.cons.inj hts).2
      exact ⟨gap ++ l.2.toList ++ before, gap', by simp, hgap, hlongest⟩

/-- A point and a digit are not left behind a number that they go on with. -/
theorem not_endsInWhole {d : Char} (h : Laid file offset cs ts ('.' :: d :: rest))
    (hd : d.isDigit = true) : ¬ EndsInWhole cs ts := by
  rintro ⟨us, t, before, rfl, hk, hdigits, hcs⟩
  obtain ⟨before', gap, hcs', hgap, hlongest⟩ := h.last
  have hnil : gap = [] := by
    rcases List.eq_nil_or_concat gap with hnil | ⟨gap', c, hc⟩
    · exact hnil
    -- a gap ends with white space, and the number does not
    rw [List.concat_eq_append] at hc
    have hblank := (hgap.separator ⟨'.', rfl, by decide⟩).isBlank_of_last hc
    have hlast := congrArg List.getLast? (hcs.symm.trans hcs')
    rw [hc, ← List.append_assoc, List.getLast?_concat,
      List.getLast?_append_of_ne_nil _ hdigits.1] at hlast
    have hdigit := hdigits.2 c (List.mem_of_getLast? hlast)
    rw [isDigit_of_isBlank hblank] at hdigit
    cases hdigit
  subst hnil
  have hnone := hlongest.number_ends hk hdigits d rest rfl
  rw [hd] at hnone
  cases hnone

end Laid

section Extend

variable {c : Char} {after : List Char} (hword : isWordPart c = false) (hslash : c ≠ '/')

include hword hslash

theorem Lexeme.Longest.extend {l : Lexeme} {cs : List Char} (h : l.Longest cs)
    (hpoint : cs = [] → l.1 = .number → IsDigits l.2.toList → c = '.' →
      ∀ d ∈ after.head?, d.isDigit = false) : l.Longest (cs ++ c :: after) := by
  have hdigit := (isWordPart_eq_false_iff.1 hword).2
  have hends : ∀ {p : Char → Bool}, p c = false → (∀ d ∈ cs.head?, p d = false) →
      ∀ d ∈ (cs ++ c :: after).head?, p d = false := by
    intro p hc hcs
    cases cs with
    | nil => simpa using hc
    | cons d cs => simpa using hcs
  cases h with
  | word chars ends => exact .word chars (hends hword ends)
  | whole chars ends point =>
    refine .whole chars (hends hdigit ends) (fun d ds hrest => ?_)
    match cs, hrest with
    | [], hrest =>
      cases hrest
      exact hpoint rfl rfl chars rfl d rfl
    | [_], hrest =>
      cases hrest
      exact hdigit
    | _ :: d' :: cs, hrest =>
      cases hrest
      exact point d cs rfl
  | fraction before after' chars ends => exact .fraction before after' chars (hends hdigit ends)
  | mark hmark slash =>
    refine .mark hmark (fun hk hhead => ?_)
    cases cs with
    | nil => exact hslash (Option.some.inj hhead)
    | cons d cs => exact slash hk hhead

/-- A character that goes on with nothing may stand behind a layout, if no comment is open there. -/
theorem Laid.extend {file : String} {offset : Nat} {cs : List Char} {ts : List Token}
    (h : Laid file offset cs ts []) (hopen : ¬ EndsInComment cs)
    (hpoint : c = '.' → EndsInWhole cs ts → ∀ d ∈ after.head?, d.isDigit = false) :
    Laid file offset cs ts (c :: after) := by
  generalize hrest : [] = rest at h
  induction h with
  | gap skips =>
    subst hrest
    rcases skips.separator_or_open with hs | ⟨hopen', _⟩
    · exact .gap (hs.gap _)
    · exact absurd hopen' hopen
  | @token offset gap cs rest l ts skips longest others ih =>
    subst hrest
    rw [List.append_assoc] at skips
    rw [List.append_nil] at longest
    have hgap := separator_of_token skips longest.spelled
    refine .token (hgap.gap _) (longest.extend hword hslash ?_) (ih ?_ ?_ rfl)
    · rintro rfl hk hdigits hc
      -- nothing is laid out behind the number, which is the last token then
      obtain rfl := others.tokens_eq_nil
      exact hpoint hc ⟨[], _, gap, rfl, hk, hdigits, by simp [Token.ofLexeme]⟩
    · exact fun hopen' => hopen hopen'.append_left
    · exact fun hc hwhole => hpoint hc hwhole.append_left

end Extend

/-- A text is scanned up to `c` and no further: what stands before is scanned by itself and leaves
no comment open there, and the character begins no lexeme and goes on with none. -/
structure Stray (file before : String) (c : Char) (after : String) : Prop where
  scanned : ∃ ts, tokenize file before = .ok ts
  outside : ¬ EndsInComment before.toList
  blank : isBlank c = false
  word : isWordPart c = false
  mark : c ∉ ['(', ')', '=', ';', '+', '-', '*', '/', '%']
  point : c = '.' → (∃ words last, tokenize file before = .ok (words ++ [last]) ∧
    EndsInWhole before.toList words) → ∀ d ∈ after.toList.head?, d.isDigit = false

namespace Stray

variable {file source before after : String} {c : Char}

theorem laid (h : Stray file before c after) :
    ∃ words, Laid file 0 before.toList words (c :: after.toList) := by
  obtain ⟨ts, hscan⟩ := h.scanned
  obtain ⟨words, hlaid, rfl⟩ := tokenize_eq_ok_iff_laid.1 hscan
  have hslash : c ≠ '/' := fun hc => h.mark (by simp [hc])
  exact ⟨words, hlaid.extend h.word hslash h.outside
    (fun hc hwhole => h.point hc ⟨words, _, hscan, hwhole⟩)⟩

theorem next? (h : Stray file before c after) : Piece.next? (c :: after.toList) = none :=
  Piece.next?_eq_none_iff.2 ⟨h.blank, h.word, h.mark⟩

theorem left (h : Stray file before c after) :
    (Piece.split (before ++ String.singleton c ++ after).toList).2 = c :: after.toList := by
  obtain ⟨words, hlaid⟩ := h.laid
  have hleft := (place_split_laid hlaid).2
  rw [Piece.split_of_none h.next?] at hleft
  simpa using hleft

theorem unique {before' after' : String} {c' : Char} (h : Stray file before c after)
    (h' : Stray file before' c' after')
    (hsource : before' ++ String.singleton c' ++ after' = before ++ String.singleton c ++ after) :
    before' = before ∧ c' = c ∧ after' = after := by
  have hleft := h'.left
  rw [hsource, h.left] at hleft
  obtain ⟨hc, hafter⟩ := List.cons.inj hleft
  have hchars := congrArg String.toList hsource
  simp only [String.toList_append, String.toList_singleton, ← hc, ← hafter] at hchars
  refine ⟨?_, hc.symm, String.toList_inj.1 hafter.symm⟩
  exact String.toList_inj.1 (List.append_cancel_right (List.append_cancel_right hchars))

theorem of_laid {cs rest : List Char} {words : List Token}
    (h : Laid file 0 cs words (c :: rest)) (hc : Piece.next? (c :: rest) = none) :
    Stray file (String.ofList cs) c (String.ofList rest) := by
  obtain ⟨hblank, hword, hmark⟩ := Piece.next?_eq_none_iff.1 hc
  have hscan : tokenize file (String.ofList cs) =
      .ok (words ++ [Token.endAt (.inFile file (byteSize cs))]) := by
    refine tokenize_eq_ok_iff_laid.2 ⟨words, ?_, ?_⟩
    · rw [String.toList_ofList]
      exact h.nil_of_rest
    · rw [String.toList_ofList]
  refine ⟨⟨_, hscan⟩, ?_, hblank, hword, hmark, ?_⟩
  · rw [String.toList_ofList]
    refine h.not_endsInComment ⟨c, rfl, ?_⟩
    rintro rfl
    exact absurd hblank (by decide)
  · rintro rfl ⟨words', last, hscan', hwhole⟩ d hd
    rw [hscan] at hscan'
    obtain ⟨rfl, _⟩ := List.append_inj' (Except.ok.inj hscan') rfl
    rw [String.toList_ofList] at hwhole hd
    obtain ⟨ds, rfl⟩ : ∃ ds, rest = d :: ds := List.head?_eq_some_iff.1 hd
    cases hdigit : d.isDigit with
    | false => rfl
    | true => exact absurd hwhole (h.not_endsInWhole hdigit)

theorem tokenize_eq_error (h : Stray file before c after)
    (hsource : source = before ++ String.singleton c ++ after) : tokenize file source =
      .error ⟨.unrecognised (String.singleton c), ⟨UInt32.ofNat before.utf8ByteSize, file⟩⟩ := by
  obtain ⟨words, hlaid⟩ := h.laid
  refine tokenize_eq_error_iff_laid.2 ⟨before.toList, words, c, after.toList, ?_, hlaid, h.next?, ?_⟩
  · rw [hsource]
    simp
  · rw [byteSize_toList]
    rfl

theorem exists_of_error {d : Diagnostic} (h : tokenize file source = .error d) :
    ∃ before c after, source = before ++ String.singleton c ++ after ∧ Stray file before c after ∧
      d = ⟨.unrecognised (String.singleton c), ⟨UInt32.ofNat before.utf8ByteSize, file⟩⟩ := by
  obtain ⟨cs, words, c, rest, hsource, hlaid, hc, rfl⟩ := tokenize_eq_error_iff_laid.1 h
  refine ⟨String.ofList cs, c, String.ofList rest, String.toList_inj.1 (by simp [hsource]),
    .of_laid hlaid hc, ?_⟩
  rw [utf8ByteSize_ofList]
  rfl

end Stray

/-- A text cannot be scanned just if it has a stray character.  It has one at most, which is the
fault that is told, with the place that it has modulo `2 ^ 32`. -/
theorem tokenize_eq_error_iff (file source : String) :
    (∀ d, tokenize file source = .error d ↔
      ∃ before c after, source = before ++ String.singleton c ++ after ∧
        Stray file before c after ∧
        d = ⟨.unrecognised (String.singleton c), ⟨UInt32.ofNat before.utf8ByteSize, file⟩⟩ ∧
        ∀ before' c' after', source = before' ++ String.singleton c' ++ after' →
          Stray file before' c' after' → before' = before ∧ c' = c ∧ after' = after) ∧
    ((∃ ts, tokenize file source = .ok ts) ↔
      ∀ before c after, source = before ++ String.singleton c ++ after →
        ¬ Stray file before c after) := by
  refine ⟨fun d => ⟨fun h => ?_, ?_⟩, ?_, fun h => ?_⟩
  · obtain ⟨before, c, after, hsource, hs, hd⟩ := Stray.exists_of_error h
    exact ⟨before, c, after, hsource, hs, hd, fun _ _ _ hsource' hs' =>
      hs.unique hs' (hsource'.symm.trans hsource)⟩
  · rintro ⟨before, c, after, hsource, hs, rfl, _⟩
    exact hs.tokenize_eq_error hsource
  · rintro ⟨ts, hok⟩ before c after hsource hs
    rw [hs.tokenize_eq_error hsource] at hok
    cases hok
  · cases hscan : tokenize file source with
    | ok ts => exact ⟨ts, rfl⟩
    | error d =>
      obtain ⟨before, c, after, hsource, hs, _⟩ := Stray.exists_of_error hscan
      exact absurd hs (h before c after hsource)

/-- A point goes on with the digits before it, but not with a fraction, and in a comment it is no
fault. -/
example : tokenize "m" "1.5 // 2.\n1.5.3" = .error ⟨.unrecognised ".", ⟨13, "m"⟩⟩ := by
  decide +kernel

end LetArith
