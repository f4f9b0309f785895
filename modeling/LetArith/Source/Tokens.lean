import LetArith.Source.Piece
import LetArith.Diagnostic

/-! A text as tokens.  The pieces are placed one after the other, and those that make tokens
are kept; a token that closes the input stands at the end of the text. -/

namespace LetArith

/-- The size of characters in UTF-8. -/
def byteSize (cs : List Char) : Nat := cs.foldr (fun c size => c.utf8Size + size) 0

@[simp] theorem byteSize_nil : byteSize [] = 0 := rfl
@[simp] theorem byteSize_cons (c : Char) (cs : List Char) :
    byteSize (c :: cs) = c.utf8Size + byteSize cs := rfl
@[simp] theorem byteSize_append (cs ds : List Char) :
    byteSize (cs ++ ds) = byteSize cs + byteSize ds := by
  induction cs with
  | nil => simp
  | cons c cs ih => simp [ih, Nat.add_assoc]

namespace Piece

def token? (file : String) (offset : Nat) (p : Piece) : Option Token :=
  p.kind?.map (fun kind =>
    ⟨kind, p.text, ⟨.inFile file offset, .inFile file (offset + byteSize p.chars)⟩⟩)

end Piece

/-- The tokens of pieces that follow each other from `offset` on, without the closing one. -/
def place (file : String) : Nat → List Piece → List Token
  | _, [] => []
  | offset, p :: ps =>
    (p.token? file offset).toList ++ place file (offset + byteSize p.chars) ps

/-- The tokens of a text, or the first character that starts no token. -/
def tokenize (file : String) (source : String) : Except Diagnostic (List Token) :=
  let cut := Piece.split source.toList
  let reached := Position.inFile file (byteSize (Piece.joined cut.1))
  match cut.2 with
  | [] => .ok (place file 0 cut.1 ++ [Token.endAt reached])
  | c :: _ => .error ⟨.unrecognised (String.singleton c), reached⟩

end LetArith
