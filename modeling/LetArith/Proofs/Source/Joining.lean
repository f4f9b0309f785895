import LetArith.Proofs.Source.Layout

/-! Two texts, one below the other.  A line break ends every lexeme and every comment, so that the
tokens of the first text are as they are without the second, and those of the second are as far
on as the first text and the line break are long. -/

namespace LetArith

def Position.shift (bytes : Nat) (p : Position) : Position :=
  { p with offset := p.offset + UInt32.ofNat bytes }

theorem Position.shift_inFile (bytes : Nat) (file : String) (offset : Nat) :
    (inFile file offset).shift bytes = inFile file (bytes + offset) := by
  rw [shift, inFile, inFile, UInt32.ofNat_add, UInt32.add_comm]

def Span.shift (bytes : Nat) (s : Span) : Span := ⟨s.start.shift bytes, s.stop.shift bytes⟩

namespace Token

def shift (bytes : Nat) (t : Token) : Token := { t with span := t.span.shift bytes }

theorem shift_endAt (bytes : Nat) (place : Position) :
    (endAt place).shift bytes = endAt (place.shift bytes) := rfl

theorem shift_ofLexeme (bytes : Nat) (file : String) (offset : Nat) (l : Lexeme) :
    (ofLexeme file offset l).shift bytes = ofLexeme file (bytes + offset) l := by
  simp only [ofLexeme, shift, Span.shift, Position.shift_inFile, Nat.add_assoc]

end Token

def Fault.shift (bytes : Nat) : Fault → Fault
  | unrecognised text => unrecognised text
  | unexpected t complaint => unexpected (t.shift bytes) complaint
  | badNumber t => badNumber (t.shift bytes)

def Diagnostic.shift (bytes : Nat) (d : Diagnostic) : Diagnostic :=
  ⟨d.fault.shift bytes, d.position.shift bytes⟩

theorem head?_append_newline {p : Char → Prop} {rest : List Char} (h : ∀ c ∈ rest.head?, p c)
    (hp : p '\n') (more : List Char) : ∀ c ∈ (rest ++ '\n' :: more).head?, p c := by
  cases rest with
  | nil => simpa using hp
  | cons d ds => simpa using h

/-- A line break ends a comment, and what else is skipped is not changed by it. -/
theorem Gap.append_newline {gap rest : List Char} (h : Gap gap rest) (more : List Char) :
    Gap gap (rest ++ '\n' :: more) := by
  induction h with
  | nil => exact .nil
  | blank hblank _ ih => exact .blank hblank ih
  | comment inside ends _ ih =>
    refine .comment inside ?_ ih
    rw [← List.append_assoc]
    exact head?_append_newline ends rfl more

theorem Lexeme.Longest.append_newline {l : Lexeme} {rest : List Char} (h : l.Longest rest)
    (more : List Char) : l.Longest (rest ++ '\n' :: more) := by
  cases h with
  | word chars ends => exact .word chars (head?_append_newline ends (by decide) more)
  | whole chars ends point =>
    refine .whole chars (head?_append_newline ends (by decide) more) (fun c cs hrest => ?_)
    -- the point may be the last character, and then no digit follows it
    match rest, hrest with
    | [], hrest => cases hrest
    | [d], hrest =>
      cases hrest
      rfl
    | d :: d' :: ds, hrest =>
      cases hrest
      exact point c ds rfl
  | fraction before after chars ends =>
    exact .fraction before after chars (head?_append_newline ends (by decide) more)
  | mark hmark slash =>
    refine .mark hmark (fun hk hhead => ?_)
    cases rest with
    | nil => cases hhead
    | cons d ds => exact slash hk hhead

namespace Laid

variable {file : String} {offset : Nat} {cs ds rest : List Char} {ts us : List Token}

theorem append_newline (h : Laid file offset cs ts rest) (more : List Char) :
    Laid file offset cs ts (rest ++ '\n' :: more) := by
  induction h with
  | gap skips => exact .gap (skips.append_newline more)
  | token skips longest _ ih =>
    refine .token ?_ ?_ ih
    · rw [← List.append_assoc]
      exact skips.append_newline more
    · rw [← List.append_assoc]
      exact longest.append_newline more

theorem append (h : Laid file offset cs ts (ds ++ rest))
    (h' : Laid file (offset + byteSize cs) ds us rest) :
    Laid file offset (cs ++ ds) (ts ++ us) rest := by
  generalize hr : ds ++ rest = r at h
  induction h with
  | gap skips =>
    subst hr
    exact skip skips h'
  | @token offset gap cs _ l ts skips longest _ ih =>
    subst hr
    have hothers : Laid file (offset + byteSize (gap ++ l.2.toList)) (cs ++ ds) (ts ++ us) rest := by
      refine ih ?_ rfl
      simpa [Nat.add_assoc] using h'
    rw [List.append_assoc]
    refine .token ?_ ?_ hothers
    · simpa using skips
    · simpa using longest

theorem shift (bytes : Nat) (h : Laid file offset cs ts rest) :
    Laid file (bytes + offset) cs (ts.map (Token.shift bytes)) rest := by
  induction h with
  | gap skips => exact .gap skips
  | token skips longest _ ih =>
    rw [List.map_cons, Token.shift_ofLexeme, ← Nat.add_assoc]
    rw [← Nat.add_assoc] at ih
    exact .token skips longest ih

end Laid

/-- A character begins no piece just if it is of no use anywhere; what comes after it is no
matter, as a comment begins with a mark. -/
theorem Piece.next?_cons_eq_none_iff {c : Char} {cs : List Char} :
    next? (c :: cs) = none ↔ isWordStart c = false ∧ c.isDigit = false ∧ isBlank c = false ∧
      Kind.ofMark? c = none := by
  unfold next? first?
  by_cases hcomment : c = '/' ∧ cs.head? = some '/'
  · obtain ⟨rfl, hhead⟩ := hcomment
    have hword : isWordStart '/' = false := by decide
    have hblank : isBlank '/' = false := by decide
    simp [hhead, hword, hblank, Kind.ofMark?]
  · cases hword : isWordStart c <;> cases hdigit : c.isDigit <;> cases hblank : isBlank c <;>
      simp [hcomment, hword, hdigit, hblank]

section Below

variable {file a b : String}

theorem toList_below (a b : String) : (a ++ "\n" ++ b).toList = a.toList ++ ('\n' :: b.toList) := by
  simp

/-- The tokens of two texts, the second below the first, with the end of the second. -/
theorem tokenize_below {words us : List Token} {place : Position}
    (ha : tokenize file a = .ok (words ++ [Token.endAt place])) (hb : tokenize file b = .ok us) :
    tokenize file (a ++ "\n" ++ b) = .ok (words ++ us.map (Token.shift (a.utf8ByteSize + 1))) := by
  obtain ⟨_, hlaid, hwords⟩ := tokenize_eq_ok_iff_laid.1 ha
  obtain ⟨words', hlaid', rfl⟩ := tokenize_eq_ok_iff_laid.1 hb
  obtain ⟨rfl, _⟩ := List.append_inj' hwords rfl
  have hsize : ("\n").utf8ByteSize = 1 := by decide
  have hbreak : Gap ['\n'] (b.toList ++ []) := .blank (by decide) .nil
  have hbelow : Laid file (0 + byteSize a.toList) ('\n' :: b.toList)
      (words'.map (Token.shift (a.utf8ByteSize + 1))) [] := by
    refine Laid.skip hbreak ?_
    have hshift := hlaid'.shift (a.utf8ByteSize + 1)
    rwa [Nat.zero_add, byteSize_toList]
  refine tokenize_eq_ok_iff_laid.2 ⟨words ++ words'.map (Token.shift (a.utf8ByteSize + 1)), ?_, ?_⟩
  · rw [toList_below]
    refine Laid.append ?_ hbelow
    rw [List.append_nil]
    exact hlaid.append_newline b.toList
  · rw [List.map_append, List.map_singleton, Token.shift_endAt, Position.shift_inFile,
      List.append_assoc]
    simp only [byteSize_toList, String.utf8ByteSize_append, hsize]

/-- A text that cannot be scanned cannot be with another below it, for the same reason. -/
theorem tokenize_below_of_error {d : Diagnostic} (ha : tokenize file a = .error d) (b : String) :
    tokenize file (a ++ "\n" ++ b) = .error d := by
  obtain ⟨cs, words, c, rest, hsource, hlaid, hnone, rfl⟩ := tokenize_eq_error_iff_laid.1 ha
  refine tokenize_eq_error_iff_laid.2 ⟨cs, words, c, rest ++ '\n' :: b.toList, ?_,
    hlaid.append_newline b.toList, ?_, rfl⟩
  · rw [toList_below, hsource, List.append_assoc]
    rfl
  · exact Piece.next?_cons_eq_none_iff.2 (Piece.next?_cons_eq_none_iff.1 hnone)

end Below

end LetArith
