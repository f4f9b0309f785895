import LetArith.Token

/-! How a source is read: the name its positions carry, how operators are told from other
tokens, and how deep groups may nest. -/

namespace LetArith

/-- Which tokens may be operators: those with the text of one, or only those among them that
have the kind of one. -/
inductive Matching where
  | byText
  | byKind
  deriving DecidableEq

namespace Matching

def operatorText? : Matching → Token → Option String
  | byText, t => some t.text
  | byKind, t => if t.kind.isOperator then some t.text else none

def name : Matching → String
  | byText => "Lexeme"
  | byKind => "TokenKind"

end Matching

structure Config where
  file : Option String := none
  matching : Matching := .byText
  maxDepth : Nat := 256
  deriving DecidableEq

namespace Config

def fileName (c : Config) : String := c.file.getD "shell"

end Config

end LetArith
