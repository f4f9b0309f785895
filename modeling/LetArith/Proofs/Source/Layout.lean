import LetArith.Proofs.Source.Lexemes

/-! A text as lexemes with gaps around them.  White space and comments make up the gaps, where
no piece is told from the next one; every lexeme is the longest that begins where it does.  A
text is scanned just if it can be laid out like this, and then as the tokens of the layout. -/

namespace LetArith

theorem utf8ByteSize_ofList (cs : List Char) : (String.ofList cs).utf8ByteSize = byteSize cs := by
  induction cs with
  | nil => rfl
  | cons c cs ih =>
    have hcons : String.ofList (c :: cs) = String.singleton c ++ String.ofList cs := by
      rw [String.singleton_eq_ofList, ← String.ofList_append]
      rfl
    rw [byteSize_cons, ← ih, hcons, String.utf8ByteSize_append, String.utf8ByteSize_singleton]

theorem byteSize_toList (s : String) : byteSize s.toList = s.utf8ByteSize := by
  rw [← utf8ByteSize_ofList, String.ofList_toList]

/-- The characters may stand between two lexemes in front of `rest`: white space, and comments,
each up to the end of its line. -/
inductive Gap : List Char → List Char → Prop where
  | nil {rest : List Char} : Gap [] rest
  | blank {c : Char} {cs rest : List Char} (blank : isBlank c = true) (others : Gap cs rest) :
      Gap (c :: cs) rest
  | comment {line cs rest : List Char} (inside : ∀ c ∈ line, c ≠ '\n')
      (ends : ∀ c ∈ (cs ++ rest).head?, c = '\n') (others : Gap cs rest) :
      Gap ('/' :: '/' :: (line ++ cs)) rest

namespace Gap

variable {cs ds rest : List Char}

theorem append (h : Gap cs (ds ++ rest)) (h' : Gap ds rest) : Gap (cs ++ ds) rest := by
  generalize hr : ds ++ rest = r at h
  induction h with
  | nil => exact h'
  | blank hblank _ ih => exact .blank hblank (ih hr)
  | @comment line cs _ inside ends _ ih =>
    subst hr
    have hend : ∀ c ∈ ((cs ++ ds) ++ rest).head?, c = '\n' := by rwa [List.append_assoc]
    have hjoin := Gap.comment inside hend (ih rfl)
    rwa [← List.append_assoc] at hjoin

theorem of_blanks (h : ∀ c ∈ cs, isBlank c = true) : Gap cs rest := by
  induction cs with
  | nil => exact .nil
  | cons c cs ih => exact .blank (h c (by simp)) (ih (fun d hd => h d (by simp [hd])))

end Gap

namespace Lexeme

def marks : List Lexeme :=
  [(.openParen, "("), (.closeParen, ")"), (.equals, "="), (.semicolon, ";"), (.plus, "+"),
    (.dash, "-"), (.slash, "/"), (.star, "*"), (.percent, "%")]

/-- The lexeme is the longest that begins where it does, if `rest` comes after it. -/
inductive Longest (rest : List Char) : Lexeme → Prop where
  | word {s : String} (chars : IsWord s.toList) (ends : ∀ c ∈ rest.head?, isWordPart c = false) :
      Longest rest (if s = "let" then .letKeyword else if s = "const" then .constKeyword
        else .identifier, s)
  | whole {s : String} (chars : IsDigits s.toList) (ends : ∀ c ∈ rest.head?, c.isDigit = false)
      (point : ∀ c cs, rest = '.' :: c :: cs → c.isDigit = false) : Longest rest (.number, s)
  | fraction {s : String} {whole fraction : List Char} (before : IsDigits whole)
      (after : IsDigits fraction) (chars : s.toList = whole ++ '.' :: fraction)
      (ends : ∀ c ∈ rest.head?, c.isDigit = false) : Longest rest (.number, s)
  | mark {l : Lexeme} (mark : l ∈ marks) (slash : l.1 = .slash → rest.head? ≠ some '/') :
      Longest rest l

theorem mem_marks_of_ofMark? {c : Char} {kind : Kind} (h : Kind.ofMark? c = some kind) :
    (kind, String.ofList [c]) ∈ marks ∧ (kind = .slash ↔ c = '/') := by
  unfold Kind.ofMark? at h
  split at h <;> first | (cases h; decide) | cases h

theorem ofMark?_of_mem_marks {l : Lexeme} (h : l ∈ marks) :
    ∃ c, l.2.toList = [c] ∧ Kind.ofMark? c = some l.1 := by
  simp only [marks, List.mem_cons, List.not_mem_nil, or_false] at h
  rcases h with rfl | rfl | rfl | rfl | rfl | rfl | rfl | rfl | rfl <;> exact ⟨_, rfl, rfl⟩

theorem ofWord_eq (s : String) :
    Kind.ofWord s = if s = "let" then .letKeyword else if s = "const" then .constKeyword
      else .identifier := by
  unfold Kind.ofWord Kind.reserved?
  split
  · rfl
  · split <;> rfl

theorem longest_of_piece {p : Piece} {l : Lexeme} {rest : List Char} (hw : p.WellFormed)
    (he : p.EndsBefore rest) (hl : p.lexeme? = some l) : l.Longest rest := by
  obtain ⟨shape, chars⟩ := p
  cases shape with
  | word =>
    cases hl
    rw [Piece.text, ofWord_eq]
    refine .word ?_ he
    rw [String.toList_ofList]
    exact hw
  | number =>
    cases hl
    rcases hw with hdigits | ⟨whole, fraction, hwhole, hfraction, hchars⟩
    · refine .whole ?_ he.1 (he.2 hdigits)
      rw [Piece.text, String.toList_ofList]
      exact hdigits
    · refine .fraction hwhole hfraction ?_ he.1
      rw [Piece.text, String.toList_ofList]
      exact hchars
  | blank => cases hl
  | comment => cases hl
  | mark kind =>
    cases hl
    obtain ⟨c, hchars, hkind⟩ := hw
    cases hchars
    obtain ⟨hmark, hslash⟩ := mem_marks_of_ofMark? hkind
    exact .mark hmark (fun h => he (by rw [hslash.1 h]))

theorem Longest.exists_piece {l : Lexeme} {rest : List Char} (h : l.Longest rest) :
    ∃ p : Piece, p.chars = l.2.toList ∧ p.WellFormed ∧ p.EndsBefore rest ∧ p.kind? = some l.1 := by
  cases h with
  | @word s chars ends =>
    refine ⟨⟨.word, s.toList⟩, rfl, chars, ends, ?_⟩
    rw [← ofWord_eq]
    simp [Piece.kind?, Piece.text]
  | @whole s chars ends point =>
    exact ⟨⟨.number, s.toList⟩, rfl, Or.inl chars, ⟨ends, fun _ => point⟩, rfl⟩
  | @fraction s whole fraction before after chars ends =>
    refine ⟨⟨.number, s.toList⟩, rfl, Or.inr ⟨_, _, before, after, chars⟩, ⟨ends, ?_⟩, rfl⟩
    -- a point stands among the characters, so that they are not all digits
    intro hdigits
    have hpoint := hdigits.2 '.' (by simp [chars])
    exact absurd hpoint (by decide)
  | mark hmark slash =>
    obtain ⟨c, hchars, hkind⟩ := ofMark?_of_mem_marks hmark
    refine ⟨⟨.mark l.1, [c]⟩, hchars.symm, ⟨c, rfl, hkind⟩, fun hc => slash ?_, rfl⟩
    cases hc
    exact (mem_marks_of_ofMark? hkind).2.2 rfl

end Lexeme

def Token.ofLexeme (file : String) (offset : Nat) (l : Lexeme) : Token :=
  ⟨l.1, l.2, ⟨.inFile file offset, .inFile file (offset + byteSize l.2.toList)⟩⟩

/-- `Laid file offset cs ts rest`: the characters `cs`, which start `offset` bytes into the text
called `file` and have `rest` after them, are the tokens `ts` with gaps around them. -/
inductive Laid (file : String) : Nat → List Char → List Token → List Char → Prop where
  | gap {offset : Nat} {gap rest : List Char} (skips : Gap gap rest) :
      Laid file offset gap [] rest
  | token {offset : Nat} {gap cs rest : List Char} {l : Lexeme} {ts : List Token}
      (skips : Gap gap (l.2.toList ++ cs ++ rest)) (longest : l.Longest (cs ++ rest))
      (others : Laid file (offset + byteSize (gap ++ l.2.toList)) cs ts rest) :
      Laid file offset (gap ++ l.2.toList ++ cs)
        (Token.ofLexeme file (offset + byteSize gap) l :: ts) rest

namespace Piece

theorem gap_of_kind? {p : Piece} {rest : List Char} (hw : p.WellFormed) (he : p.EndsBefore rest)
    (hk : p.kind? = none) : Gap p.chars rest := by
  obtain ⟨shape, chars⟩ := p
  cases shape with
  | word => cases hk
  | number => cases hk
  | blank => exact .of_blanks hw.2
  | comment =>
    obtain ⟨line, hchars, hline⟩ := hw
    cases hchars
    have hcomment : Gap ('/' :: '/' :: (line ++ [])) rest := .comment hline he .nil
    rwa [List.append_nil] at hcomment
  | mark kind => cases hk

end Piece

namespace Laid

variable {file : String} {offset : Nat} {gap cs rest : List Char} {ts : List Token}

theorem skip (hg : Gap gap (cs ++ rest)) (h : Laid file (offset + byteSize gap) cs ts rest) :
    Laid file offset (gap ++ cs) ts rest := by
  cases h with
  | gap skips => exact .gap (hg.append skips)
  | @token _ gap' cs _ l ts skips longest others =>
    have hjoin : Gap (gap ++ gap') (l.2.toList ++ cs ++ rest) := by
      refine Gap.append ?_ skips
      simpa using hg
    have hothers : Laid file (offset + byteSize (gap ++ gap' ++ l.2.toList)) cs ts rest := by
      simpa [Nat.add_assoc] using others
    have htoken := Laid.token hjoin longest hothers
    simpa [Nat.add_assoc] using htoken

theorem of_tiles {ps : List Piece} (h : Piece.Tiles ps rest) :
    Laid file offset (Piece.joined ps) (place file offset ps) rest := by
  induction ps generalizing offset with
  | nil => exact .gap .nil
  | cons p ps ih =>
    obtain ⟨hw, he, hps⟩ := h
    rw [Piece.joined_cons]
    cases hk : p.kind? with
    | none =>
      have hplace : place file offset (p :: ps) = place file (offset + byteSize p.chars) ps := by
        rw [place, Piece.token?, hk]
        rfl
      rw [hplace]
      exact skip (p.gap_of_kind? hw he hk) (ih hps)
    | some kind =>
      have hlongest : Lexeme.Longest (Piece.joined ps ++ rest) (kind, p.text) :=
        Lexeme.longest_of_piece hw he (by rw [Piece.lexeme?, hk]; rfl)
      have hchars : p.text.toList = p.chars := String.toList_ofList
      have hothers : Laid file (offset + byteSize ([] ++ p.text.toList)) (Piece.joined ps)
          (place file (offset + byteSize p.chars) ps) rest := by
        rw [List.nil_append, hchars]
        exact ih hps
      have htoken := Laid.token .nil hlongest hothers
      have hplace : place file offset (p :: ps) =
          Token.ofLexeme file offset (kind, p.text) ::
            place file (offset + byteSize p.chars) ps := by
        rw [place, Piece.token?, hk, Token.ofLexeme, hchars]
        rfl
      rw [hplace]
      simpa [hchars] using htoken

end Laid

section Split

variable (file : String) (offset : Nat)

theorem place_split_of_kind? {p : Piece} {rest : List Char} (hw : p.WellFormed)
    (he : p.EndsBefore rest) (hk : p.kind? = none) :
    place file offset (Piece.split (p.chars ++ rest)).1 =
        place file (offset + byteSize p.chars) (Piece.split rest).1 ∧
      (Piece.split (p.chars ++ rest)).2 = (Piece.split rest).2 := by
  rw [Piece.split_of_some (Piece.next?_of_spec hw he), place, Piece.token?, hk]
  exact ⟨rfl, rfl⟩

/-- One blank more or less makes no difference, although the pieces are others. -/
theorem place_split_blank {c : Char} (hc : isBlank c = true) (cs : List Char) :
    place file offset (Piece.split (c :: cs)).1 =
        place file (offset + byteSize [c]) (Piece.split cs).1 ∧
      (Piece.split (c :: cs)).2 = (Piece.split cs).2 := by
  have hparts : cs.takeWhile isBlank ++ cs.dropWhile isBlank = cs :=
    List.takeWhile_append_dropWhile
  have hrun : ∀ d ∈ cs.takeWhile isBlank, isBlank d = true := fun d hd => of_mem_takeWhile hd
  have hend : ∀ d ∈ (cs.dropWhile isBlank).head?, isBlank d = false :=
    fun d hd => head?_dropWhile hd
  have hlong := place_split_of_kind? file offset
    (p := ⟨.blank, c :: cs.takeWhile isBlank⟩) ⟨by simp, by simpa [hc] using hrun⟩ hend rfl
  simp only [List.cons_append, hparts] at hlong
  by_cases hnone : cs.takeWhile isBlank = []
  · rw [hnone, List.nil_append] at hparts
    rw [hnone, hparts] at hlong
    exact hlong
  · have hshort := place_split_of_kind? file (offset + byteSize [c])
      (p := ⟨.blank, cs.takeWhile isBlank⟩) ⟨hnone, hrun⟩ hend rfl
    simp only [hparts] at hshort
    rw [hlong.1, hlong.2, hshort.1, hshort.2]
    simp [Nat.add_assoc]

theorem place_split_gap {gap rest : List Char} (h : Gap gap rest) :
    place file offset (Piece.split (gap ++ rest)).1 =
        place file (offset + byteSize gap) (Piece.split rest).1 ∧
      (Piece.split (gap ++ rest)).2 = (Piece.split rest).2 := by
  induction h generalizing offset with
  | nil => exact ⟨rfl, rfl⟩
  | @blank c cs rest hblank _ ih =>
    obtain ⟨htokens, hleft⟩ := place_split_blank file offset hblank (cs ++ rest)
    obtain ⟨htokens', hleft'⟩ := ih (offset + byteSize [c])
    rw [List.cons_append, htokens, hleft, htokens', hleft']
    simp [Nat.add_assoc]
  | @comment line cs rest inside ends _ ih =>
    obtain ⟨htokens, hleft⟩ := place_split_of_kind? file offset
      (p := ⟨.comment, '/' :: '/' :: line⟩) ⟨line, rfl, inside⟩ ends rfl
    obtain ⟨htokens', hleft'⟩ := ih (offset + byteSize ('/' :: '/' :: line))
    have hchars : '/' :: '/' :: (line ++ cs) ++ rest = '/' :: '/' :: line ++ (cs ++ rest) := by simp
    rw [hchars, htokens, hleft, htokens', hleft']
    simp [Nat.add_assoc]

variable {file offset}

/-- What is laid out is scanned as its tokens, and the scanner then goes on with the rest. -/
theorem place_split_laid {cs rest : List Char} {ts : List Token} (h : Laid file offset cs ts rest) :
    place file offset (Piece.split (cs ++ rest)).1 =
        ts ++ place file (offset + byteSize cs) (Piece.split rest).1 ∧
      (Piece.split (cs ++ rest)).2 = (Piece.split rest).2 := by
  induction h with
  | gap skips => exact place_split_gap file _ skips
  | @token offset gap cs rest l ts skips longest _ ih =>
    obtain ⟨p, hchars, hw, he, hk⟩ := longest.exists_piece
    have htext : p.text = l.2 := by rw [Piece.text, hchars, String.ofList_toList]
    have hgap := place_split_gap file offset skips
    have hpiece := Piece.split_of_some (Piece.next?_of_spec hw he)
    have hwhole : gap ++ l.2.toList ++ cs ++ rest = gap ++ (l.2.toList ++ cs ++ rest) := by simp
    have hfirst : l.2.toList ++ cs ++ rest = p.chars ++ (cs ++ rest) := by simp [hchars]
    rw [hwhole, hgap.1, hgap.2, hfirst, hpiece, place, Piece.token?, hk, htext, hchars]
    refine ⟨?_, ih.2⟩
    have hnext := ih.1
    simp only [byteSize_append, ← Nat.add_assoc] at hnext ⊢
    rw [hnext]
    rfl

end Split

/-- A text is scanned just if it can be laid out, and then as the tokens of the layout. -/
theorem tokenize_eq_ok_iff_laid {file source : String} {ts : List Token} :
    tokenize file source = .ok ts ↔
      ∃ words, Laid file 0 source.toList words [] ∧
        ts = words ++ [Token.endAt (.inFile file (byteSize source.toList))] := by
  constructor
  · intro h
    obtain ⟨ps, hsource, htiles, rfl⟩ := tokenize_eq_ok_iff.1 h
    refine ⟨place file 0 ps, ?_, rfl⟩
    rw [hsource]
    exact .of_tiles htiles
  · rintro ⟨words, hlaid, rfl⟩
    obtain ⟨htokens, hleft⟩ := place_split_laid hlaid
    rw [List.append_nil] at htokens hleft
    have hjoined := Piece.joined_split source.toList
    rw [hleft, Piece.split_nil, List.append_nil] at hjoined
    simp only [tokenize, hleft, Piece.split_nil, htokens, hjoined]
    simp [place]

/-- A text is not scanned just if it can be laid out up to a character that begins nothing. -/
theorem tokenize_eq_error_iff_laid {file source : String} {d : Diagnostic} :
    tokenize file source = .error d ↔
      ∃ cs words c rest, source.toList = cs ++ c :: rest ∧ Laid file 0 cs words (c :: rest) ∧
        Piece.next? (c :: rest) = none ∧
        d = ⟨.unrecognised (String.singleton c), .inFile file (byteSize cs)⟩ := by
  have hjoined := Piece.joined_split source.toList
  have htiles := Piece.tiles_split source.toList
  have hnone := Piece.next?_split source.toList
  constructor
  · intro h
    cases hrest : (Piece.split source.toList).2 with
    | nil =>
      simp only [tokenize, hrest] at h
      cases h
    | cons c rest =>
      rw [hrest] at hjoined htiles hnone
      simp only [tokenize, hrest] at h
      cases h
      exact ⟨_, _, c, rest, hjoined.symm, .of_tiles htiles, hnone, rfl⟩
  · rintro ⟨cs, words, c, rest, hsource, hlaid, hc, rfl⟩
    have hleft := (place_split_laid hlaid).2
    rw [Piece.split_of_none hc, ← hsource] at hleft
    rw [hleft] at hjoined
    have hcs := List.append_cancel_right (hjoined.trans hsource)
    simp only [tokenize, hleft, hcs]

end LetArith
