import LetArith.Token
import LetArith.Text.Quoted

/-! What can be wrong with a text or with a list of tokens, and the words for it. -/

namespace LetArith

/-- Why a token is not the one that was needed. -/
inductive Complaint where
  | notAnOperand
  | groupNotClosed
  | nestedTooDeeply
  | nameMissing
  | initializerMissing
  | equalsMissing
  | semicolonMissing
  | other (text : String)
  deriving DecidableEq

namespace Complaint

def text : Complaint → String
  | notAnOperand => "unexpected token in expression"
  | groupNotClosed => "expected closing parenthesis"
  | nestedTooDeeply => "expression nested too deeply"
  | nameMissing => "expected identifier after declaration keyword"
  | initializerMissing => "constant must have an initializer"
  | equalsMissing => "expected '=' after identifier"
  | semicolonMissing => "declaration must end with ';'"
  | other text => text

end Complaint

inductive Fault where
  | unrecognised (text : String)
  | unexpected (token : Token) (complaint : Complaint)
  | badNumber (token : Token)
  deriving DecidableEq

namespace Fault

/-- The token at fault.  A character that starts no token has none. -/
def token? : Fault → Option Token
  | unrecognised _ => none
  | unexpected t _ => some t
  | badNumber t => some t

def summary : Fault → String
  | unrecognised _ => "unrecognised character"
  | unexpected _ complaint => complaint.text
  | badNumber _ => "invalid numeric literal"

def message : Fault → String
  | unrecognised text => "unrecognised character: " ++ quoted text
  | unexpected t complaint => complaint.text ++ ": found " ++ t.describe
  | badNumber t => "error parsing number: " ++ quoted t.text

def advice? : Fault → Option String
  | unrecognised text =>
    if text = "" then none else some ("Character `" ++ text ++ "` is not part of the language")
  | unexpected t complaint =>
    if t.isEnd then some ("Input ended early, " ++ complaint.text)
    else some ("Unexpected token: `" ++ t.text ++ "`, " ++ complaint.text)
  | badNumber t =>
    some ("Invalid number: `" ++ t.text ++ "`, is it too large to be finite?")

end Fault

structure Diagnostic where
  fault : Fault
  position : Position
  deriving DecidableEq

namespace Diagnostic

/-- A token that does not fit, reported where it starts. -/
def unexpected (t : Token) (complaint : Complaint) : Diagnostic :=
  ⟨.unexpected t complaint, t.span.start⟩

/-- A token that is to be a number and has no finite value, reported where it starts. -/
def badNumber (t : Token) : Diagnostic := ⟨.badNumber t, t.span.start⟩

end Diagnostic

end LetArith
