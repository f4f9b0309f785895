import LetArith.Number.Decimal

/-! Trees of the interchange format JSON.  A number is kept as the decimal it is written as,
objects keep their members in order and keep repeated names, and a text is missing where its
escapes do not form characters. -/

namespace LetArith

inductive Json where
  | null
  | bool (b : Bool)
  | number (negative : Bool) (magnitude : Decimal)
  | text (s : Option String)
  | array (items : List Json)
  | object (members : List (Option String × Json))

namespace Json

def ofString (s : String) : Json := text (some s)

def record (members : List (String × Json)) : Json :=
  object (members.map (fun m => (some m.1, m.2)))

/-- An object with one member, which says which case the value is of. -/
def tagged (tag : String) (value : Json) : Json := record [(tag, value)]

end Json

end LetArith
