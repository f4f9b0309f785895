import LetArith.Grammar.Expression

/-! Declarations and statements.  A declaration is a keyword, a name, a value unless it is to
be given later, and a semicolon; a constant must have its value.  A statement that no keyword
announces is an expression, and nothing separates it from the next one. -/

namespace LetArith

namespace Declaration

def readValue (rules : Rules) (room : Nat) (constant : Bool) (name : String) :
    Parse Declaration := do
  if (← Parse.place).peek.kind = .semicolon then
    let t ← Parse.advance
    if constant then Parse.fail (.unexpected t .initializerMissing)
    else pure ⟨false, name, none⟩
  else
    let _ ← Parse.expect .equals .equalsMissing
    let e ← Expr.read rules room
    let _ ← Parse.expect .semicolon .semicolonMissing
    pure ⟨constant, name, some e⟩

/-- A declaration whose keyword is the token at the place, whatever that is. -/
def read (rules : Rules) (room : Nat) : Parse Declaration := do
  let keyword ← Parse.advance
  let name ← Parse.expect .identifier .nameMissing
  readValue rules room (keyword.kind == .constKeyword) name.text

end Declaration

namespace Statement

def read (rules : Rules) (room : Nat) : Parse Statement := do
  if rules.declares (← Parse.place).peek.kind then
    let d ← Declaration.read rules room
    pure (declaration d)
  else
    let e ← Expr.read rules room
    pure (expression e)

/-- Statements up to the end of the input or to the first failure, and the kinds of the tokens
that those tried began with.  Every statement passes a token, so that as many statements as
there are tokens are enough. -/
def readAll (rules : Rules) (room : Nat) :
    Nat → Cursor → List Kind × Except Failure (List Statement)
  | 0, _ => ([], .ok [])
  | bound + 1, c =>
    if c.atEnd then ([], .ok [])
    else
      match read rules room c with
      | .error f => ([c.peek.kind], .error f)
      | .ok (s, d) =>
        let rest := readAll rules room bound d
        (c.peek.kind :: rest.1, rest.2.map (s :: ·))

end Statement

end LetArith
