import LetArith.Proofs.Source.Layout
import Mathlib.Data.List.Basic

/-! Where the tokens of a text stand in it.  The bytes of a text are shared out between its
tokens and the gaps around them, in their order, and every token tells where it stands. -/

namespace LetArith

namespace Piece

theorem endsBefore_nil (p : Piece) : p.EndsBefore [] := by
  obtain ⟨shape, chars⟩ := p
  cases shape <;> simp [EndsBefore]

end Piece

theorem Lexeme.Longest.kind_unique {l l' : Lexeme} {rest rest' : List Char} (h : l.Longest rest)
    (h' : l'.Longest rest') (hs : l.2 = l'.2) : l.1 = l'.1 := by
  obtain ⟨p, hchars, hw, _, hk⟩ := h.exists_piece
  obtain ⟨p', hchars', hw', _, hk'⟩ := h'.exists_piece
  have hsame : p.chars = p'.chars := by rw [hchars, hchars', hs]
  have hnext := Piece.next?_of_spec hw p.endsBefore_nil
  rw [hsame, Piece.next?_of_spec hw' p'.endsBefore_nil] at hnext
  cases hnext
  exact Option.some.inj (hk.symm.trans hk')

/-- The part `s` of a text stands between the bytes `i` and `j` of it, and `after` behind it. -/
def StandsAt (source : String) (i j : Nat) (s after : String) : Prop :=
  ∃ before, source = before ++ s ++ after ∧ before.utf8ByteSize = i ∧ (before ++ s).utf8ByteSize = j

theorem StandsAt.le {source s after : String} {i j : Nat} (h : StandsAt source i j s after) :
    i ≤ j := by
  obtain ⟨before, _, rfl, rfl⟩ := h
  rw [String.utf8ByteSize_append]
  omega

/-- Where tokens stand in a text.  The token number `k` has the bytes from `start k` up to
`stop (k + 1)`, and the gap before it those from `stop k` up to `start k`; behind the last token
there is one more gap. -/
structure Placement (file source : String) (ts : List Token) (start stop : Nat → Nat) : Prop where
  gap : ∀ k ≤ ts.length, ∃ s after, StandsAt source (stop k) (start k) s after ∧
    Gap s.toList after.toList
  lexeme : ∀ k t, ts[k]? = some t → ∃ after, StandsAt source (start k) (stop (k + 1)) t.text after ∧
    t.lexeme.Longest after.toList
  ordered : ∀ k ≤ ts.length, stop k ≤ start k
  nonempty : ∀ k < ts.length, start k < stop (k + 1)
  span : ∀ k t, ts[k]? = some t →
    (t.span.start.offset.toNat = start k % 2 ^ 32 ∧ t.span.start.file = file) ∧
    (t.span.stop.offset.toNat = stop (k + 1) % 2 ^ 32 ∧ t.span.stop.file = file)

namespace Placement

variable {file source : String} {ts : List Token} {start stop : Nat → Nat}

theorem nil {i j : Nat} (s after : String) (h : StandsAt source i j s after)
    (hgap : Gap s.toList after.toList) :
    Placement file source [] (fun _ => j) (fun _ => i) where
  gap := fun _ _ => ⟨s, after, h, hgap⟩
  lexeme := fun _ _ ht => by cases ht
  ordered := fun _ _ => h.le
  nonempty := fun _ hk => absurd hk (Nat.not_lt_zero _)
  span := fun _ _ ht => by cases ht

theorem cons {t : Token} {i j : Nat} {s after after' : String} (h : Placement file source ts start stop)
    (hs : StandsAt source i j s after) (hgap : Gap s.toList after.toList)
    (ht : StandsAt source j (stop 0) t.text after') (hlongest : t.lexeme.Longest after'.toList)
    (hlt : j < stop 0)
    (hspan : t.span = ⟨.inFile file j, .inFile file (stop 0)⟩) :
    Placement file source (t :: ts) (fun | 0 => j | k + 1 => start k)
      (fun | 0 => i | k + 1 => stop k) where
  gap := by
    intro k hk
    cases k with
    | zero => exact ⟨s, after, hs, hgap⟩
    | succ k => exact h.gap k (Nat.le_of_succ_le_succ hk)
  lexeme := by
    intro k u hu
    cases k with
    | zero =>
      cases hu
      exact ⟨after', ht, hlongest⟩
    | succ k => exact h.lexeme k u hu
  ordered := by
    intro k hk
    cases k with
    | zero => exact hs.le
    | succ k => exact h.ordered k (Nat.le_of_succ_le_succ hk)
  nonempty := by
    intro k hk
    cases k with
    | zero => exact hlt
    | succ k => exact h.nonempty k (Nat.lt_of_succ_lt_succ hk)
  span := by
    intro k u hu
    cases k with
    | zero =>
      cases hu
      rw [hspan]
      exact ⟨⟨Position.inFile_offset _ _, rfl⟩, ⟨Position.inFile_offset _ _, rfl⟩⟩
    | succ k => exact h.span k u hu

end Placement

theorem Lexeme.Longest.spelled {l : Lexeme} {rest : List Char} (h : l.Longest rest) :
    l.Spelled := by
  obtain ⟨p, hchars, hw, _, hk⟩ := h.exists_piece
  refine Piece.spelled_of_lexeme? hw ?_
  rw [Piece.lexeme?, hk, Piece.text, hchars, String.ofList_toList]
  rfl

theorem Lexeme.Longest.toList_ne_nil {l : Lexeme} {rest : List Char} (h : l.Longest rest) :
    l.2.toList ≠ [] := by
  obtain ⟨p, hchars, hw, _⟩ := h.exists_piece
  rw [← hchars]
  exact hw.ne_nil

theorem byteSize_pos {cs : List Char} (h : cs ≠ []) : 0 < byteSize cs := by
  obtain ⟨c, ds, rfl⟩ := List.exists_cons_of_ne_nil h
  have := c.utf8Size_pos
  rw [byteSize_cons]
  omega

theorem Laid.exists_placement {file : String} {offset : Nat} {cs rest : List Char} {ts : List Token}
    (h : Laid file offset cs ts rest) {source before after : String}
    (hsource : source = before ++ String.ofList cs ++ after) (hbefore : before.utf8ByteSize = offset)
    (hafter : after.toList = rest) :
    ∃ start stop, stop 0 = offset ∧ start ts.length = (before ++ String.ofList cs).utf8ByteSize ∧
      Placement file source ts start stop := by
  induction h generalizing before with
  | @gap offset gap rest skips =>
    refine ⟨_, _, rfl, rfl, .nil (String.ofList gap) after
      ⟨before, hsource, hbefore, rfl⟩ ?_⟩
    rwa [String.toList_ofList, hafter]
  | @token offset gap cs rest l ts skips longest _ ih =>
    have hsize : byteSize gap = (String.ofList gap).utf8ByteSize := (utf8ByteSize_ofList gap).symm
    have hparts : String.ofList (gap ++ l.2.toList ++ cs) =
        String.ofList gap ++ l.2 ++ String.ofList cs := by
      rw [String.ofList_append, String.ofList_append, String.ofList_toList]
    have hwhole : source = before ++ String.ofList gap ++ l.2 ++ String.ofList cs ++ after := by
      rw [hsource, hparts]
      simp only [String.append_assoc]
    have hoffset : (before ++ String.ofList gap ++ l.2).utf8ByteSize =
        offset + byteSize (gap ++ l.2.toList) := by
      rw [byteSize_append, byteSize_toList, hsize, String.utf8ByteSize_append,
        String.utf8ByteSize_append, hbefore, Nat.add_assoc]
    obtain ⟨start, stop, hzero, hlast, hplaced⟩ := ih hwhole hoffset hafter
    have hfirst : (before ++ String.ofList gap).utf8ByteSize = offset + byteSize gap := by
      rw [String.utf8ByteSize_append, hbefore, hsize]
    have hgap : StandsAt source offset (offset + byteSize gap) (String.ofList gap)
        (l.2 ++ String.ofList cs ++ after) := by
      refine ⟨before, ?_, hbefore, hfirst⟩
      rw [hwhole]
      simp only [String.append_assoc]
    have htoken : StandsAt source (offset + byteSize gap) (stop 0) l.2
        (String.ofList cs ++ after) := by
      refine ⟨before ++ String.ofList gap, ?_, hfirst, hoffset.trans hzero.symm⟩
      rw [hwhole]
      simp only [String.append_assoc]
    have hstop : stop 0 = offset + byteSize gap + byteSize l.2.toList := by
      rw [hzero, byteSize_append, Nat.add_assoc]
    have hpos := byteSize_pos longest.toList_ne_nil
    refine ⟨_, _, rfl, ?_, hplaced.cons (t := Token.ofLexeme file (offset + byteSize gap) l)
      hgap ?_ htoken ?_ (by omega) ?_⟩
    · show start ts.length = _
      rw [hparts, hlast]
      simp only [String.append_assoc]
    · simpa [hafter] using skips
    · simpa [hafter, Token.lexeme, Token.ofLexeme] using longest
    · rw [hstop]
      rfl

/-- The token that closes a text has none of its bytes, and stands where it ends. -/
structure Token.Closes (file source : String) (t : Token) : Prop where
  kind : t.kind = .endOfInput
  text : t.text = "EOF"
  empty : t.span.start = t.span.stop
  offset : t.span.start.offset.toNat = source.utf8ByteSize % 2 ^ 32
  file : t.span.start.file = file

/-- The text of a token decides its kind. -/
structure Token.Classed (t : Token) : Prop where
  inside : t.kind ≠ .endOfInput
  word : IsWord t.text.toList → t.kind = if t.text = "let" then .letKeyword
    else if t.text = "const" then .constKeyword else .identifier
  number : IsNumeral t.text.toList → t.kind = .number
  mark : ∀ l ∈ Lexeme.marks, t.text = l.2 → t.kind = l.1

theorem Lexeme.Longest.classed {t : Token} {rest : List Char} (h : t.lexeme.Longest rest) :
    t.Classed where
  inside := by simpa [Token.isEnd] using Lexeme.isEnd_of_spelled h.spelled
  word := by
    intro hword
    have hlongest : Longest [] _ := .word hword (by simp)
    exact h.kind_unique hlongest rfl
  number := by
    rintro (hdigits | ⟨whole, fraction, hwhole, hfraction, hchars⟩)
    · have hlongest : Longest [] _ := .whole hdigits (by simp) (by simp)
      exact h.kind_unique hlongest rfl
    · have hlongest : Longest [] _ := .fraction hwhole hfraction hchars (by simp)
      exact h.kind_unique hlongest rfl
  mark := by
    intro l hmark htext
    have hlongest : Longest [] l := .mark hmark (by simp)
    exact h.kind_unique hlongest htext

/-- The tokens of a text share out its bytes.  The last one, and no other, closes the input where
the text ends.  The others stand one after the other in places of their own, each of them the
longest lexeme that begins where it does, with nothing but white space and comments between them;
their texts decide their kinds, and their spans tell their places modulo `2 ^ 32`. -/
theorem tokenize_placement (file source : String) (ts : List Token)
    (h : tokenize file source = .ok ts) :
    ∃ words last start stop, ts = words ++ [last] ∧ last.Closes file source ∧
      (∀ t ∈ words, t.Classed) ∧ stop 0 = 0 ∧ start words.length = source.utf8ByteSize ∧
      Placement file source words start stop := by
  obtain ⟨words, hlaid, rfl⟩ := tokenize_eq_ok_iff_laid.1 h
  have hsource : source = "" ++ String.ofList source.toList ++ "" := by
    simp [String.ofList_toList]
  obtain ⟨start, stop, hzero, hlast, hplaced⟩ := hlaid.exists_placement hsource rfl rfl
  refine ⟨words, _, start, stop, rfl, ⟨rfl, rfl, rfl, ?_, rfl⟩, ?_, hzero, ?_, hplaced⟩
  · rw [byteSize_toList]
    exact Position.inFile_offset _ _
  · intro t ht
    obtain ⟨k, hk⟩ := List.mem_iff_getElem?.1 ht
    obtain ⟨after, _, hlongest⟩ := hplaced.lexeme k t hk
    exact hlongest.classed
  · simpa [String.ofList_toList] using hlast

/-- The tokens of a text with a blank of two bytes, a comment, and a slash in front of a number. -/
def quotient : List Token :=
  [⟨.letKeyword, "let", ⟨⟨0, "m"⟩, ⟨3, "m"⟩⟩⟩, ⟨.identifier, "x", ⟨⟨5, "m"⟩, ⟨6, "m"⟩⟩⟩,
    ⟨.slash, "/", ⟨⟨13, "m"⟩, ⟨14, "m"⟩⟩⟩, ⟨.number, "1.5", ⟨⟨14, "m"⟩, ⟨17, "m"⟩⟩⟩,
    .endAt ⟨17, "m"⟩]

theorem tokenize_placement_quotient :
    tokenize "m" "let\u00a0x // é\n/1.5" = .ok quotient ∧
    ∃ words last start stop, quotient = words ++ [last] ∧
      last.Closes "m" "let\u00a0x // é\n/1.5" ∧ (∀ t ∈ words, t.Classed) ∧ stop 0 = 0 ∧
      start words.length = ("let\u00a0x // é\n/1.5").utf8ByteSize ∧
      Placement "m" "let\u00a0x // é\n/1.5" words start stop :=
  have h : tokenize "m" "let\u00a0x // é\n/1.5" = .ok quotient := by decide +kernel
  ⟨h, tokenize_placement "m" "let\u00a0x // é\n/1.5" quotient h⟩

end LetArith
