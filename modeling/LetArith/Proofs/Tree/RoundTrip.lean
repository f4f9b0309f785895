import LetArith.Proofs.Grammar.Recognition
import LetArith.Proofs.Tree.Derived
import LetArith.Proofs.Tree.Rendering

/-! Programs and their texts.  A text is read as a program just if it is tiled by pieces whose
tokens derive the program, so what is said of derivations and of printed pieces decides which
programs are read back from their own texts. -/

namespace LetArith.Program

variable {config : Config} {p : Program}

theorem ofTokens_place_iff {ps : List Piece} {stop : Token} (htiles : Piece.Tiles ps [])
    (hstop : stop.isEnd = true) :
    ofTokens config (place config.fileName 0 ps ++ [stop]) = .ok p ↔
      Derives config.matching config.maxDepth (place config.fileName 0 ps) stop p.body := by
  -- no piece closes the input, so the token put at the end is the first that does
  have hopen : ∀ t ∈ place config.fileName 0 ps, t.isEnd = false :=
    fun t ht => Lexeme.isEnd_of_spelled (spelled_of_mem_place htiles ht)
  obtain ⟨hahead, hlast⟩ := Cursor.ofTokens_append_end hopen hstop []
  rw [ofTokens_eq_ok_iff_cursor, hahead, hlast]

/-- A text is read in three steps: it is cut, its pieces make tokens, and these derive trees. -/
theorem ofSource_eq_ok_iff {source : String} :
    ofSource config source = .ok p ↔
      ∃ ps, source.toList = Piece.joined ps ∧ Piece.Tiles ps [] ∧
        Derives config.matching config.maxDepth (place config.fileName 0 ps)
          (Token.endAt (.inFile config.fileName (byteSize source.toList))) p.body := by
  constructor
  · intro h
    cases hscan : tokenize config.fileName source with
    | ok ts =>
      obtain ⟨ps, hsource, htiles, rfl⟩ := tokenize_eq_ok_iff.1 hscan
      rw [ofSource_of_tokenize hscan] at h
      exact ⟨ps, hsource, htiles, (ofTokens_place_iff htiles rfl).1 h⟩
    | error d => simp [ofSource, Reading.ofSource, hscan] at h
  · rintro ⟨ps, hsource, htiles, h⟩
    have hscan : tokenize config.fileName source = .ok _ :=
      tokenize_eq_ok_iff.2 ⟨ps, hsource, htiles, rfl⟩
    rw [ofSource_of_tokenize hscan]
    exact (ofTokens_place_iff htiles rfl).2 h

theorem legible_of_ofSource {source : String} (h : ofSource config source = .ok p) :
    ∀ s ∈ p.body, s.Legible ∧ s.nesting ≤ config.maxDepth := by
  obtain ⟨ps, _, htiles, hd⟩ := ofSource_eq_ok_iff.1 h
  exact hd.legible (fun t ht => spelled_of_mem_place htiles ht)

theorem ofSource_of_legible (h : ∀ s ∈ p.body, s.Legible ∧ s.nesting ≤ config.maxDepth) :
    ofSource config p.text = .ok p := by
  have htiles := (tiles_bodyPieces (fun s hs => (h s hs).1)).1
  refine ofSource_eq_ok_iff.2 ⟨p.pieces, p.joined_pieces.symm, htiles, ?_⟩
  exact derives_of_lexemes h (lexemes_place _ _ _) (fun t ht => spelled_of_mem_place htiles ht)
    (Matching.neutral_endAt _ _)

/-- A program that was read from some text is read again from its own text, with the same
configuration. -/
theorem ofSource_text (config : Config) (source : String) (p : Program)
    (h : ofSource config source = .ok p) : ofSource config p.text = .ok p :=
  ofSource_of_legible (legible_of_ofSource h)

def scaled : Program :=
  ⟨[.declaration ⟨false, "x",
      some (.binary (.binary (.identifier "a") .add (.number .zero)) .multiply (.identifier "b"))⟩,
    .expression (.identifier "x")]⟩

theorem ofSource_text_scaled :
    ofSource {} "let x = ((a + 0.0)) * b; x" = .ok scaled ∧ ofSource {} scaled.text = .ok scaled :=
  have h : ofSource {} "let x = ((a + 0.0)) * b; x" = .ok scaled := by decide +kernel
  ⟨h, ofSource_text {} "let x = ((a + 0.0)) * b; x" scaled h⟩

/-- A program is read from its own text just if all its names are names and no keywords, all its
numbers are finite and have no sign, all its constants have values, and the groups of its text
are no deeper than the limit. -/
theorem ofSource_text_iff (config : Config) (p : Program) :
    ofSource config p.text = .ok p ↔
      (∀ s ∈ p.names, IsName s) ∧ (∀ x ∈ p.numbers, ∃ rank, x = .finite false rank) ∧
      (∀ d, .declaration d ∈ p.body → d.constant = true → d.value ≠ none) ∧
      p.nesting ≤ config.maxDepth := by
  constructor
  · intro h
    have hlegible := legible_of_ofSource h
    refine ⟨fun n hn => ?_, fun x hx => ?_, fun d hd => ?_, ?_⟩
    · obtain ⟨s, hs, hn⟩ := List.mem_flatMap.1 hn
      exact (hlegible s hs).1.names n hn
    · obtain ⟨s, hs, hx⟩ := List.mem_flatMap.1 hx
      exact (hlegible s hs).1.numbers x hx
    · exact (hlegible _ hd).1.values d rfl
    · exact nesting_le_iff.2 (fun s hs => (hlegible s hs).2)
  · rintro ⟨hnames, hnumbers, hvalues, hnesting⟩
    apply ofSource_of_legible
    intro s hs
    refine ⟨⟨fun n hn => ?_, fun x hx => ?_, fun d hd => ?_⟩, nesting_le_iff.1 hnesting s hs⟩
    · exact hnames n (List.mem_flatMap.2 ⟨s, hs, hn⟩)
    · exact hnumbers x (List.mem_flatMap.2 ⟨s, hs, hx⟩)
    · rw [hd] at hs
      exact hvalues d hs

/-- A sign in front of a number goes on with the statement before it. -/
example : ofSource {} (text ⟨[.expression (.identifier "a"), .expression (.number Binary64.zero.negate)]⟩) =
    .ok ⟨[.expression (.binary (.identifier "a") .subtract (.number .zero))]⟩ := by decide +kernel

end LetArith.Program
