import LetArith.Proofs.Source.Maximal

/-! The tokens of a text without their places.  A text that is tiled by pieces has the tokens
of those pieces, in their order, and the one that closes the input; and every token of a text
has the shape that its kind calls for. -/

namespace LetArith

/-- A kind of token and its text. -/
abbrev Lexeme := Kind × String

def Token.lexeme (t : Token) : Lexeme := (t.kind, t.text)

/-- How the tokens of each kind are spelled in a text.  None is spelled that closes it. -/
def Lexeme.Spelled : Lexeme → Prop
  | (.endOfInput, _) => False
  | (.identifier, s) => IsName s
  | (.number, s) => IsNumeral s.toList
  | (.letKeyword, s) => s = "let"
  | (.constKeyword, s) => s = "const"
  | (kind, s) => ∃ c, s = String.ofList [c] ∧ Kind.ofMark? c = some kind

namespace Lexeme

variable {t : Token}

theorem isName_of_spelled (h : t.lexeme.Spelled) (hk : t.kind = .identifier) : IsName t.text := by
  rw [Token.lexeme, hk] at h
  exact h

theorem isNumeral_of_spelled (h : t.lexeme.Spelled) (hk : t.kind = .number) :
    IsNumeral t.text.toList := by
  rw [Token.lexeme, hk] at h
  exact h

theorem isEnd_of_spelled (h : t.lexeme.Spelled) : t.isEnd = false := by
  cases hk : t.isEnd with
  | false => rfl
  | true =>
    have hend : t.kind = .endOfInput := eq_of_beq hk
    rw [Token.lexeme, hend] at h
    exact h.elim

end Lexeme

namespace Piece

def lexeme? (p : Piece) : Option Lexeme := p.kind?.map (fun kind => (kind, p.text))

/-- The pieces follow one another before `rest`, and none of them can be made longer. -/
def Tiles : List Piece → List Char → Prop
  | [], _ => True
  | p :: ps, rest => p.WellFormed ∧ p.EndsBefore (joined ps ++ rest) ∧ Tiles ps rest

@[simp] theorem joined_nil : joined [] = [] := rfl
@[simp] theorem joined_cons (p : Piece) (ps : List Piece) :
    joined (p :: ps) = p.chars ++ joined ps := rfl
@[simp] theorem joined_append (ps qs : List Piece) : joined (ps ++ qs) = joined ps ++ joined qs := by
  simp [joined]

theorem tiles_append {ps qs : List Piece} {rest : List Char} :
    Tiles (ps ++ qs) rest ↔ Tiles ps (joined qs ++ rest) ∧ Tiles qs rest := by
  induction ps with
  | nil => simp [Tiles]
  | cons p ps ih => simp [Tiles, ih, and_assoc]

theorem WellFormed.ne_nil {p : Piece} (h : p.WellFormed) : p.chars ≠ [] := by
  obtain ⟨shape, chars⟩ := p
  cases shape with
  | word =>
    obtain ⟨c, cs, rfl, _⟩ := h
    simp
  | number =>
    rcases h with h | ⟨whole, fraction, _, _, rfl⟩
    · exact h.1
    · simp
  | blank => exact h.1
  | comment =>
    obtain ⟨cs, rfl, _⟩ := h
    simp
  | mark kind =>
    obtain ⟨c, rfl, _⟩ := h
    simp

theorem split_of_tiles {ps : List Piece} {rest : List Char} (h : Tiles ps rest)
    (hrest : next? rest = none) : split (joined ps ++ rest) = (ps, rest) := by
  induction ps with
  | nil => exact split_of_none hrest
  | cons p ps ih =>
    obtain ⟨hw, he, hps⟩ := h
    have hnext := next?_of_spec hw he
    rw [← List.append_assoc, ← joined_cons] at hnext
    rw [split_of_some hnext, ih hps]

theorem tiles_split (cs : List Char) : Tiles (split cs).1 (split cs).2 := by
  fun_induction split cs with
  | case1 cs _ => exact trivial
  | case2 cs p rest h pieces ih =>
    obtain ⟨hw, he⟩ := spec_of_next? h
    refine ⟨hw, ?_, ih⟩
    rw [joined_split]
    exact he

theorem wellFormed_of_tiles {ps : List Piece} {rest : List Char} (h : Tiles ps rest) {p : Piece}
    (hp : p ∈ ps) : p.WellFormed := by
  induction ps with
  | nil => cases hp
  | cons q ps ih =>
    rcases List.mem_cons.1 hp with rfl | hp
    · exact h.1
    · exact ih h.2.2 hp

theorem spelled_word {cs : List Char} (h : WellFormed ⟨.word, cs⟩) :
    Lexeme.Spelled (Kind.ofWord (String.ofList cs), String.ofList cs) := by
  by_cases hlet : String.ofList cs = "let"
  · rw [hlet]
    exact rfl
  by_cases hconst : String.ofList cs = "const"
  · rw [hconst]
    exact rfl
  have hkind : Kind.ofWord (String.ofList cs) = .identifier := by
    simp [Kind.ofWord, Kind.reserved?, hlet, hconst]
  obtain ⟨c, ds, rfl, hc, hds⟩ := h
  rw [hkind]
  exact ⟨⟨c, ds, String.toList_ofList, hc, hds⟩, hlet, hconst⟩

theorem spelled_of_lexeme? {p : Piece} {l : Lexeme} (h : p.WellFormed)
    (hl : p.lexeme? = some l) : l.Spelled := by
  obtain ⟨shape, chars⟩ := p
  cases shape with
  | word =>
    cases hl
    exact spelled_word h
  | number =>
    cases hl
    show IsNumeral (String.ofList chars).toList
    rw [String.toList_ofList]
    exact h
  | blank => cases hl
  | comment => cases hl
  | mark kind =>
    cases hl
    obtain ⟨c, rfl, hkind⟩ := h
    unfold Kind.ofMark? at hkind
    split at hkind <;> first | (cases hkind; exact ⟨_, rfl, rfl⟩) | cases hkind

end Piece

theorem lexemes_place (file : String) (offset : Nat) (ps : List Piece) :
    (place file offset ps).map Token.lexeme = ps.filterMap Piece.lexeme? := by
  induction ps generalizing offset with
  | nil => rfl
  | cons p ps ih =>
    rw [place, List.map_append, ih, List.filterMap_cons]
    unfold Piece.lexeme? Piece.token?
    cases p.kind? <;> rfl

/-- The tokens of a text are spelled as their kinds are. -/
theorem spelled_of_mem_place {file : String} {offset : Nat} {ps : List Piece} {rest : List Char}
    {t : Token} (h : Piece.Tiles ps rest) (ht : t ∈ place file offset ps) : t.lexeme.Spelled := by
  have hmem : t.lexeme ∈ ps.filterMap Piece.lexeme? := by
    rw [← lexemes_place file offset]
    exact List.mem_map_of_mem ht
  obtain ⟨p, hp, hl⟩ := List.mem_filterMap.1 hmem
  exact Piece.spelled_of_lexeme? (Piece.wellFormed_of_tiles h hp) hl

/-- A text is scanned just if it is tiled by pieces, and then as the tokens they make. -/
theorem tokenize_eq_ok_iff {file source : String} {ts : List Token} :
    tokenize file source = .ok ts ↔
      ∃ ps, source.toList = Piece.joined ps ∧ Piece.Tiles ps [] ∧
        ts = place file 0 ps ++ [Token.endAt (.inFile file (byteSize source.toList))] := by
  have hjoined := Piece.joined_split source.toList
  have htiles := Piece.tiles_split source.toList
  unfold tokenize
  constructor
  · intro h
    cases hrest : (Piece.split source.toList).2 with
    | nil =>
      rw [hrest, List.append_nil] at hjoined
      rw [hrest] at htiles
      simp only [hrest, hjoined] at h
      cases h
      exact ⟨_, hjoined.symm, htiles, rfl⟩
    | cons c cs =>
      simp only [hrest] at h
      cases h
  · rintro ⟨ps, hsource, htiles, rfl⟩
    have hsplit := Piece.split_of_tiles htiles rfl
    rw [List.append_nil] at hsplit
    simp only [hsource, hsplit]

end LetArith
