import LetArith.Proofs.Number.ReadBack
import LetArith.Proofs.Source.Lexemes
import LetArith.Tree.Text

/-! The text of a tree as pieces.  Where the names are names and the numbers have no sign, every
piece ends where the next one begins, whatever stands around the text as long as it is set off
by a blank, a parenthesis or a semicolon. -/

namespace LetArith

namespace Operator

def kind : Operator → Kind
  | add => .plus
  | subtract => .dash
  | multiply => .star
  | divide => .slash
  | modulo => .percent

theorem isOperator_kind (op : Operator) : op.kind.isOperator = true := by cases op <;> decide

theorem toList_lexeme (op : Operator) :
    ∃ c, op.lexeme.toList = [c] ∧ Kind.ofMark? c = some op.kind := by
  cases op <;> exact ⟨_, rfl, rfl⟩

end Operator

namespace Piece

def word (s : String) : Piece := ⟨.word, s.toList⟩
def numeral (s : String) : Piece := ⟨.number, s.toList⟩
def space : Piece := ⟨.blank, [' ']⟩
def newline : Piece := ⟨.blank, ['\n']⟩
def opening : Piece := ⟨.mark .openParen, ['(']⟩
def closing : Piece := ⟨.mark .closeParen, [')']⟩
def equals : Piece := ⟨.mark .equals, ['=']⟩
def semicolon : Piece := ⟨.mark .semicolon, [';']⟩
def operator (op : Operator) : Piece := ⟨.mark op.kind, op.lexeme.toList⟩

def grouped (needed : Bool) (ps : List Piece) : List Piece :=
  if needed then opening :: (ps ++ [closing]) else ps

end Piece

/-- A depth of groups with those around it counted, if they are needed. -/
def deepened (needed : Bool) (depth : Nat) : Nat := if needed then depth + 1 else depth

namespace Expr

def pieces : Expr → List Piece
  | binary left op right =>
    Piece.grouped (left.tier < op.tier) left.pieces ++ Piece.space :: Piece.operator op ::
      Piece.space :: Piece.grouped (right.tier ≤ op.tier) right.pieces
  | identifier symbol => [Piece.word symbol]
  | number value => [Piece.numeral value.text]

def names : Expr → List String
  | binary left _ right => left.names ++ right.names
  | identifier symbol => [symbol]
  | number _ => []

/-- How deep the groups stand inside each other that the text of a tree has. -/
def nesting : Expr → Nat
  | binary left op right =>
    max (deepened (left.tier < op.tier) left.nesting) (deepened (right.tier ≤ op.tier) right.nesting)
  | identifier _ => 0
  | number _ => 0

end Expr

namespace Statement

def pieces : Statement → List Piece
  | declaration d =>
    Piece.word d.keyword :: Piece.space :: Piece.word d.name ::
      match d.value with
      | some e => Piece.space :: Piece.equals :: Piece.space :: (e.pieces ++ [Piece.semicolon])
      | none => [Piece.semicolon]
  | expression e => e.pieces

def names : Statement → List String
  | declaration d => d.name :: d.value.elim [] Expr.names
  | expression e => e.names

def nesting : Statement → Nat
  | declaration d => d.value.elim 0 Expr.nesting
  | expression e => e.nesting

end Statement

namespace Program

def bodyPieces : List Statement → List Piece
  | [] => []
  | [s] => s.pieces
  | s :: t :: ss => s.pieces ++ Piece.newline :: bodyPieces (t :: ss)

def pieces (p : Program) : List Piece := bodyPieces p.body

def names (p : Program) : List String := p.body.flatMap Statement.names

def nesting (p : Program) : Nat := (p.body.map Statement.nesting).foldr max 0

theorem nesting_le_iff {p : Program} {n : Nat} : p.nesting ≤ n ↔ ∀ s ∈ p.body, s.nesting ≤ n := by
  obtain ⟨body⟩ := p
  induction body with
  | nil => simp [nesting]
  | cons s ss ih =>
    have hmax : nesting ⟨s :: ss⟩ = max s.nesting (nesting ⟨ss⟩) := rfl
    rw [hmax, Nat.max_le, ih]
    simp

end Program

section Joined

theorem Piece.joined_grouped {needed : Bool} {ps : List Piece} {s : String}
    (h : joined ps = s.toList) : joined (grouped needed ps) = (parenthesised needed s).toList := by
  cases needed with
  | true => simp [grouped, parenthesised, opening, closing, h]
  | false => simp [grouped, parenthesised, h]

theorem Expr.joined_pieces (e : Expr) : Piece.joined e.pieces = e.text.toList := by
  induction e with
  | binary left op right ihl ihr =>
    simp [pieces, text, Piece.joined_grouped ihl, Piece.joined_grouped ihr, Piece.space,
      Piece.operator]
  | identifier symbol => simp [pieces, text, Piece.word]
  | number value => simp [pieces, text, Piece.numeral]

theorem Statement.joined_pieces (s : Statement) : Piece.joined s.pieces = s.text.toList := by
  cases s with
  | declaration d =>
    obtain ⟨constant, name, value⟩ := d
    cases value with
    | none =>
      simp [pieces, text, Declaration.text, Piece.word, Piece.space, Piece.semicolon]
    | some e =>
      simp [pieces, text, Declaration.text, Piece.word, Piece.space, Piece.semicolon, Piece.equals,
        e.joined_pieces]
  | expression e => exact e.joined_pieces

theorem Program.joined_bodyPieces (ss : List Statement) :
    Piece.joined (bodyPieces ss) = ("\n".intercalate (ss.map Statement.text)).toList := by
  induction ss with
  | nil => rfl
  | cons s ss ih =>
    cases ss with
    | nil => simpa [bodyPieces] using s.joined_pieces
    | cons t ss =>
      rw [List.map_cons, List.map_cons, String.intercalate_cons_cons, ← List.map_cons]
      simp [bodyPieces, s.joined_pieces, ih, Piece.newline]

theorem Program.joined_pieces (p : Program) : Piece.joined p.pieces = p.text.toList :=
  joined_bodyPieces p.body

end Joined

namespace Piece

/-- What sets a piece off from the text after it. -/
def Separated (rest : List Char) : Prop :=
  ∀ c ∈ rest.head?, c = ' ' ∨ c = ')' ∨ c = ';' ∨ c = '\n'

/-- Pieces that begin with no blank, and that end where they do before any separation. -/
structure Solid (ps : List Piece) : Prop where
  visible : ∃ c cs, joined ps = c :: cs ∧ isBlank c = false
  tiles : ∀ rest, Separated rest → Tiles ps rest

theorem Separated.stops {rest : List Char} (h : Separated rest) {c : Char} (hc : c ∈ rest.head?) :
    isWordPart c = false ∧ c.isDigit = false ∧ c ≠ '.' ∧ c ≠ '/' := by
  rcases h c hc with rfl | rfl | rfl | rfl <;> decide

theorem solid_word {s : String} (h : (word s).WellFormed) : Solid [word s] where
  visible := by
    obtain ⟨c, cs, hcs, hc, _⟩ := h
    have hjoined : joined [word s] = c :: cs := by simpa using hcs
    exact ⟨c, cs, hjoined, isBlank_of_isWordStart hc⟩
  tiles := fun _ hr => ⟨h, fun _ hc => (hr.stops hc).1, trivial⟩

theorem solid_numeral {s : String} (h : IsNumeral s.toList) : Solid [numeral s] where
  visible := by
    obtain ⟨c, cs, hcs, hc⟩ := head_of_isNumeral h
    exact ⟨c, cs, by simpa [numeral] using hcs, isBlank_of_isDigit hc⟩
  tiles := by
    intro rest hr
    refine ⟨h, ⟨fun c hc => (hr.stops hc).2.1, fun _ c cs hrest => ?_⟩, trivial⟩
    rw [joined_nil, List.nil_append] at hrest
    exact absurd rfl (hr.stops (c := '.') (by simp [hrest])).2.2.1

theorem solid_mark {p : Piece} {kind : Kind} {c : Char} (hshape : p.shape = .mark kind)
    (hchars : p.chars = [c]) (hc : Kind.ofMark? c = some kind) : Solid [p] := by
  obtain ⟨shape, chars⟩ := p
  cases hshape
  cases hchars
  refine ⟨⟨c, [], rfl, (eq_of_ofMark? hc).2.2.1⟩, fun rest hr => ⟨⟨c, rfl, hc⟩, ?_, trivial⟩⟩
  intro _ hhead
  exact absurd rfl (hr.stops hhead).2.2.2

theorem solid_operator (op : Operator) : Solid [operator op] := by
  obtain ⟨c, hchars, hc⟩ := op.toList_lexeme
  exact solid_mark rfl hchars hc

theorem solid_equals : Solid [equals] := solid_mark rfl rfl rfl

section Composition

variable {ps qs : List Piece}

/-- A single blank stands between what can be seen. -/
theorem Solid.blank (hp : Solid ps) (hq : Solid qs) {c : Char} (hc : c = ' ' ∨ c = '\n') :
    Solid (ps ++ ⟨.blank, [c]⟩ :: qs) where
  visible := by
    obtain ⟨d, ds, hd, hv⟩ := hp.visible
    exact ⟨d, _, by rw [joined_append, hd, List.cons_append], hv⟩
  tiles := by
    intro rest hr
    obtain ⟨d, ds, hd, hv⟩ := hq.visible
    have hblank : isBlank c = true := by rcases hc with rfl | rfl <;> decide
    have hsep : Separated (c :: (joined qs ++ rest)) := by
      intro x hx
      cases hx
      rcases hc with rfl | rfl
      · exact Or.inl rfl
      · exact Or.inr (Or.inr (Or.inr rfl))
    refine tiles_append.2 ⟨hp.tiles _ hsep, ⟨by simp, by simpa using hblank⟩, ?_, hq.tiles rest hr⟩
    intro x hx
    rw [hd] at hx
    cases hx
    exact hv

theorem Solid.spaced (hp : Solid ps) (hq : Solid qs) : Solid (ps ++ space :: qs) :=
  hp.blank hq (Or.inl rfl)

/-- A mark that separates may follow at once. -/
theorem Solid.marked (hp : Solid ps) {kind : Kind} {c : Char} (hc : Kind.ofMark? c = some kind)
    (hsep : Separated [c]) : Solid (ps ++ [⟨.mark kind, [c]⟩]) where
  visible := by
    obtain ⟨d, ds, hd, hv⟩ := hp.visible
    exact ⟨d, _, by rw [joined_append, hd, List.cons_append], hv⟩
  tiles := fun rest hr =>
    tiles_append.2 ⟨hp.tiles _ hsep, (solid_mark rfl rfl hc).tiles rest hr⟩

theorem Solid.grouped (hp : Solid ps) (needed : Bool) : Solid (grouped needed ps) := by
  cases needed with
  | false => exact hp
  | true =>
    have hclosed := hp.marked (c := ')') rfl (by intro c hc; cases hc; exact Or.inr (Or.inl rfl))
    refine ⟨⟨'(', _, rfl, by decide⟩, fun rest hr => ⟨⟨'(', rfl, rfl⟩, ?_, hclosed.tiles rest hr⟩⟩
    intro h
    cases h

end Composition
end Piece

/-- A tree that the text of one can be read as: its names are names, and its numbers are finite
and have no sign. -/
structure Expr.Legible (e : Expr) : Prop where
  names : ∀ s ∈ e.names, IsName s
  numbers : ∀ x ∈ e.numbers, ∃ rank, x = .finite false rank

/-- The same of a statement; and constants have values. -/
structure Statement.Legible (s : Statement) : Prop where
  names : ∀ n ∈ s.names, IsName n
  numbers : ∀ x ∈ s.numbers, ∃ rank, x = .finite false rank
  values : ∀ d, s = declaration d → d.constant = true → d.value ≠ none

namespace Expr.Legible

variable {l r : Expr} {op : Operator}

theorem left (h : (binary l op r).Legible) : l.Legible :=
  ⟨fun s hs => h.names s (List.mem_append_left _ hs),
    fun x hx => h.numbers x (List.mem_append_left _ hx)⟩

theorem right (h : (binary l op r).Legible) : r.Legible :=
  ⟨fun s hs => h.names s (List.mem_append_right _ hs),
    fun x hx => h.numbers x (List.mem_append_right _ hx)⟩

end Expr.Legible

theorem Expr.solid_pieces {e : Expr} (h : e.Legible) : Piece.Solid e.pieces := by
  induction e with
  | binary l op r ihl ihr =>
    have hl := (ihl h.left).grouped (l.tier < op.tier)
    have hr := (ihr h.right).grouped (r.tier ≤ op.tier)
    have hjoin := (hl.spaced (Piece.solid_operator op)).spaced hr
    simpa [pieces] using hjoin
  | identifier s => exact Piece.solid_word (h.names s (by simp [names])).1
  | number x =>
    obtain ⟨rank, rfl⟩ := h.numbers x (by simp [numbers])
    exact Piece.solid_numeral (Binary64.isNumeral_text rank)

namespace Statement

theorem Legible.of_expression {e : Expr} (h : (expression e).Legible) : e.Legible :=
  ⟨h.names, h.numbers⟩

theorem Legible.of_value {constant : Bool} {name : String} {e : Expr}
    (h : (declaration ⟨constant, name, some e⟩).Legible) : e.Legible :=
  ⟨fun s hs => h.names s (List.mem_cons_of_mem name hs), h.numbers⟩

theorem wellFormed_keyword (d : Declaration) : (Piece.word d.keyword).WellFormed := by
  unfold Declaration.keyword
  cases d.constant with
  | true => exact ⟨'c', "onst".toList, rfl, rfl, List.all_eq_true.1 rfl⟩
  | false => exact ⟨'l', "et".toList, rfl, rfl, List.all_eq_true.1 rfl⟩

theorem solid_pieces {s : Statement} (h : s.Legible) : Piece.Solid s.pieces := by
  cases s with
  | declaration d =>
    have hkeyword := Piece.solid_word (wellFormed_keyword d)
    have hname := Piece.solid_word (h.names d.name (by simp [names])).1
    have hsemicolon : Piece.Separated [';'] := by
      intro c hc
      cases hc
      exact Or.inr (Or.inr (Or.inl rfl))
    obtain ⟨constant, name, value⟩ := d
    cases value with
    | none =>
      have hjoin := hkeyword.spaced (hname.marked rfl hsemicolon)
      simpa [pieces, Piece.semicolon] using hjoin
    | some e =>
      have hvalue := (Expr.solid_pieces h.of_value).marked rfl hsemicolon
      have hjoin := hkeyword.spaced (hname.spaced (Piece.solid_equals.spaced hvalue))
      simpa [pieces, Piece.semicolon] using hjoin
  | expression e => exact Expr.solid_pieces h.of_expression

end Statement

/-- The text of statements is tiled by their pieces. -/
theorem Program.tiles_bodyPieces {ss : List Statement} (h : ∀ s ∈ ss, s.Legible) :
    Piece.Tiles (bodyPieces ss) [] ∧ (ss ≠ [] → Piece.Solid (bodyPieces ss)) := by
  induction ss with
  | nil => exact ⟨trivial, fun hne => absurd rfl hne⟩
  | cons s ss ih =>
    have hs := Statement.solid_pieces (h s (by simp))
    have hrest := ih (fun t ht => h t (by simp [ht]))
    have hsolid : Piece.Solid (bodyPieces (s :: ss)) := by
      cases ss with
      | nil => exact hs
      | cons t ss => exact hs.blank (hrest.2 (by simp)) (Or.inr rfl)
    exact ⟨hsolid.tiles [] (by intro c hc; cases hc), fun _ => hsolid⟩

end LetArith
