/-! Places in a source text.  An offset counts bytes of the text's UTF-8 form and is
kept in 32 bits, so it is the true offset modulo `2 ^ 32`. -/

namespace LetArith

-- powers of natural numbers are `Nat.pow` throughout, also beside the libraries of algebra, which
-- have an instance of their own and prefer it
@[default_instance 10001]
scoped instance (priority := 1100) natPow : Pow Nat Nat := instPowNat

structure Position where
  offset : UInt32
  file : String
  deriving DecidableEq

namespace Position

/-- The place of a token that no scanner produced. -/
def null : Position := ⟨0, "<null>"⟩

def inFile (file : String) (bytes : Nat) : Position :=
  ⟨UInt32.ofNat bytes, file⟩

@[simp] theorem inFile_offset (file : String) (bytes : Nat) :
    (inFile file bytes).offset.toNat = bytes % 2 ^ 32 := by
  simp [inFile]

end Position

structure Span where
  start : Position
  stop : Position
  deriving DecidableEq

namespace Span

def empty (place : Position) : Span := ⟨place, place⟩

def null : Span := empty Position.null

end Span

end LetArith
