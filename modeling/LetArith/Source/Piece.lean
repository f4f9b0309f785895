import LetArith.Token

/-! A text cut into pieces.  A piece is the longest run of one of these shapes: a word, a
number, white space, a comment up to the end of its line, or a character that is a token by
itself.  The pieces and what is left after them make up the text. -/

namespace LetArith

/-- Whether a character is white space: the ASCII blanks and controls from tab to carriage
return, next line, the no-break space, and the other spaces and separators of the standard. -/
def isBlank (c : Char) : Bool :=
  let n := c.toNat
  (0x09 ≤ n && n ≤ 0x0d) || n == 0x20 || n == 0x85 || n == 0xa0 || n == 0x1680 ||
    (0x2000 ≤ n && n ≤ 0x200a) || n == 0x2028 || n == 0x2029 || n == 0x202f ||
    n == 0x205f || n == 0x3000

def isWordStart (c : Char) : Bool := c.isAlpha || c == '_'

def isWordPart (c : Char) : Bool := c.isAlphanum || c == '_'

inductive Shape where
  | word
  | number
  | blank
  | comment
  | mark (kind : Kind)
  deriving DecidableEq

structure Piece where
  shape : Shape
  chars : List Char
  deriving DecidableEq

namespace Piece

def text (p : Piece) : String := String.ofList p.chars

/-- The kind of token a piece makes.  White space and comments make none. -/
def kind? (p : Piece) : Option Kind :=
  match p.shape with
  | .word => some (Kind.ofWord p.text)
  | .number => some .number
  | .blank => none
  | .comment => none
  | .mark kind => some kind

/-- A number that begins with `c`.  A point belongs to it only if a digit follows. -/
def number (c : Char) (cs : List Char) : Piece × List Char :=
  let whole := c :: cs.takeWhile Char.isDigit
  match cs.dropWhile Char.isDigit with
  | '.' :: d :: rest =>
    if d.isDigit then
      (⟨.number, whole ++ '.' :: d :: rest.takeWhile Char.isDigit⟩, rest.dropWhile Char.isDigit)
    else (⟨.number, whole⟩, '.' :: d :: rest)
  | rest => (⟨.number, whole⟩, rest)

/-- The piece that begins with `c`, and the characters after it. -/
def first? (c : Char) (cs : List Char) : Option (Piece × List Char) :=
  if isWordStart c then
    some (⟨.word, c :: cs.takeWhile isWordPart⟩, cs.dropWhile isWordPart)
  else if c.isDigit then some (number c cs)
  else if isBlank c then some (⟨.blank, c :: cs.takeWhile isBlank⟩, cs.dropWhile isBlank)
  else if c = '/' ∧ cs.head? = some '/' then
    some (⟨.comment, c :: cs.takeWhile (· != '\n')⟩, cs.dropWhile (· != '\n'))
  else (Kind.ofMark? c).map (fun kind => (⟨.mark kind, [c]⟩, cs))

def next? : List Char → Option (Piece × List Char)
  | [] => none
  | c :: cs => first? c cs

theorem number_append (c : Char) (cs : List Char) :
    (number c cs).1.chars ++ (number c cs).2 = c :: cs := by
  have whole : cs.takeWhile Char.isDigit ++ cs.dropWhile Char.isDigit = cs :=
    List.takeWhile_append_dropWhile
  unfold number
  split
  · next d rest h =>
    rw [h] at whole
    split
    · simpa [List.takeWhile_append_dropWhile] using whole
    · simpa using whole
  · simp

theorem number_ne_nil (c : Char) (cs : List Char) : (number c cs).1.chars ≠ [] := by
  unfold number
  split
  · split <;> simp
  · simp

theorem first?_append {c : Char} {cs rest : List Char} {p : Piece}
    (h : first? c cs = some (p, rest)) : p.chars ++ rest = c :: cs ∧ p.chars ≠ [] := by
  unfold first? at h
  split at h
  · cases h; simp
  · split at h
    · have same : number c cs = (p, rest) := Option.some.inj h
      have append := number_append c cs
      have nonempty := number_ne_nil c cs
      rw [same] at append nonempty
      exact ⟨append, nonempty⟩
    · split at h
      · cases h; simp
      · split at h
        · cases h; simp
        · obtain ⟨kind, _, h⟩ := Option.map_eq_some_iff.1 h
          cases h; simp

theorem next?_append {cs rest : List Char} {p : Piece} (h : next? cs = some (p, rest)) :
    p.chars ++ rest = cs := by
  cases cs with
  | nil => simp [next?] at h
  | cons c cs => exact (first?_append h).1

theorem next?_ne_nil {cs rest : List Char} {p : Piece} (h : next? cs = some (p, rest)) :
    p.chars ≠ [] := by
  cases cs with
  | nil => simp [next?] at h
  | cons c cs => exact (first?_append h).2

theorem length_lt_of_next? {cs rest : List Char} {p : Piece} (h : next? cs = some (p, rest)) :
    rest.length < cs.length := by
  rw [← next?_append h, List.length_append]
  have := List.length_pos_iff.2 (next?_ne_nil h)
  omega

/-- All pieces of a text, up to its end or to a character that starts none. -/
def split (cs : List Char) : List Piece × List Char :=
  match _step : next? cs with
  | none => ([], cs)
  | some (p, rest) =>
    let pieces := split rest
    (p :: pieces.1, pieces.2)
termination_by cs.length
decreasing_by exact length_lt_of_next? _step

theorem split_of_none {cs : List Char} (h : next? cs = none) : split cs = ([], cs) := by
  rw [split]
  split
  · rfl
  · simp_all

theorem split_of_some {cs rest : List Char} {p : Piece} (h : next? cs = some (p, rest)) :
    split cs = (p :: (split rest).1, (split rest).2) := by
  rw [split]
  split
  · simp_all
  · next h' =>
    rw [h] at h'
    cases h'
    rfl

@[simp] theorem split_nil : split [] = ([], []) := split_of_none rfl

def joined (pieces : List Piece) : List Char := pieces.flatMap Piece.chars

theorem joined_split (cs : List Char) : joined (split cs).1 ++ (split cs).2 = cs := by
  fun_induction split cs with
  | case1 cs h => simp [joined]
  | case2 cs p rest h pieces ih =>
    rw [← next?_append h, ← ih]
    simp [joined, pieces]

theorem next?_split (cs : List Char) : next? (split cs).2 = none := by
  fun_induction split cs with
  | case1 cs h => exact h
  | case2 cs p rest h _ ih => exact ih

end Piece

end LetArith
