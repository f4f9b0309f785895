import LetArith.Source.Tokens

/-! Places in a text, counted in bytes.  The rest of the text is there to be read only from the
boundaries of characters, the end included.  A reader counts in 64 bits and may be moved
anywhere. -/

namespace LetArith

structure Place where
  source : String
  file : String
  offset : Nat

namespace Place

/-- The characters after the first `bytes` bytes, if these are whole characters. -/
def dropBytes : Nat → List Char → Option (List Char)
  | 0, cs => some cs
  | _ + 1, [] => none
  | bytes + 1, c :: cs =>
    if c.utf8Size ≤ bytes + 1 then dropBytes (bytes + 1 - c.utf8Size) cs else none

theorem dropBytes_cons (c : Char) (cs : List Char) (bytes : Nat) :
    dropBytes (c.utf8Size + bytes) (c :: cs) = dropBytes bytes cs := by
  have hpos := c.utf8Size_pos
  cases hsize : c.utf8Size + bytes with
  | zero => omega
  | succ n =>
    have fits : c.utf8Size ≤ n + 1 := by omega
    have left : n + 1 - c.utf8Size = bytes := by omega
    rw [dropBytes, if_pos fits, left]

theorem dropBytes_byteSize (cs ds : List Char) : dropBytes (byteSize cs) (cs ++ ds) = some ds := by
  induction cs with
  | nil => cases ds <;> rfl
  | cons c cs ih => rw [byteSize_cons, List.cons_append, dropBytes_cons, ih]

def advance (p : Place) (bytes : Nat) : Place := { p with offset := p.offset + bytes }

def remainder? (p : Place) : Option (List Char) := dropBytes p.offset p.source.toList

/-- The next character, or nothing at the end of the text. -/
def current? (p : Place) : Option (Option Char) := p.remainder?.map List.head?

def atEnd (p : Place) : Bool := p.source.utf8ByteSize ≤ p.offset

def position (p : Place) : Position := .inFile p.file p.offset

variable (p : Place) (bytes more : Nat)

@[simp] theorem file_advance : (p.advance bytes).file = p.file := rfl
@[simp] theorem offset_advance : (p.advance bytes).offset = p.offset + bytes := rfl
@[simp] theorem advance_zero : p.advance 0 = p := rfl

@[simp] theorem advance_advance : (p.advance bytes).advance more = p.advance (bytes + more) := by
  simp [advance, Nat.add_assoc]

end Place

structure Reader where
  source : String
  file : String
  offset : UInt64

namespace Reader

def ofSource (source : String) (file : String) : Reader := ⟨source, file, 0⟩

def place (r : Reader) : Place := ⟨r.source, r.file, r.offset.toNat⟩

def advance (r : Reader) (bytes : UInt64) : Reader := { r with offset := r.offset + bytes }

def remainder? (r : Reader) : Option (List Char) := r.place.remainder?

def current? (r : Reader) : Option (Option Char) := r.place.current?

def atEnd (r : Reader) : Bool := r.place.atEnd

def position (r : Reader) : Position := r.place.position

/-- From here to `bytes` bytes further on. -/
def spanOf (r : Reader) (bytes : UInt64) : Span := ⟨r.position, (r.advance bytes).position⟩

end Reader

end LetArith
