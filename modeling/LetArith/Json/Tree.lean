import LetArith.Json.Text
import LetArith.Tree

/-! Programs as JSON.  A case of a sum is an object with one member, which is named for the
case; a record is an object with a member for each field, or an array of all fields in order.
Reading goes down only as far as there is room for arrays and objects inside each other. -/

namespace LetArith

namespace Json

/-- The case a value is of, and what it holds. -/
def case? : Json → Option (String × Json)
  | object [(some tag, content)] => some (tag, content)
  | _ => none

/-- The fields of a record, by their names.  In an object a field may be missing but not occur
twice, and members with other names do not count. -/
def fields? (names : List String) : Json → Option (List (Option Json))
  | array items => if items.length = names.length then some (items.map some) else none
  | object members =>
    let known := members.filterMap Prod.fst
    if known.length = members.length ∧ names.all (fun name => known.count name ≤ 1) then
      some (names.map (fun name => members.lookup (some name)))
    else none
  | _ => none

end Json

namespace Binary64

/-- A finite number by its shortest digits, and null for the others. -/
def toJson : Binary64 → Json
  | finite negative rank => .number negative (shortest rank)
  | _ => .null

def ofJson? : Json → Option Binary64
  | .number negative magnitude =>
    let x := ofDecimal negative magnitude
    if x.isFinite then some x else none
  | _ => none

end Binary64

namespace Operator

def ofJson? (room : Nat) : Json → Option Operator
  | .text (some s) => ofLexeme? s
  | .object [(some s, .null)] => if room = 0 then none else ofLexeme? s
  | _ => none

end Operator

namespace Expr

def toJson (literal : Binary64 → Json) : Expr → Json
  | binary left op right => .tagged "Binary" (.record
      [("left", left.toJson literal), ("right", right.toJson literal),
        ("operator", .ofString op.lexeme)])
  | identifier symbol => .tagged "Identifier" (.record [("symbol", .ofString symbol)])
  | number value => .tagged "NumericLiteral" (.record [("value", literal value)])

def ofJson? : Nat → Json → Option Expr
  | room + 2, json => do
    let (tag, content) ← json.case?
    if tag = "Binary" then
      match ← content.fields? ["left", "right", "operator"] with
      | [some left, some right, some op] =>
        let left ← ofJson? room left
        let right ← ofJson? room right
        let op ← Operator.ofJson? room op
        pure (binary left op right)
      | _ => none
    else if tag = "Identifier" then
      match ← content.fields? ["symbol"] with
      | [some (.text (some symbol))] => pure (identifier symbol)
      | _ => none
    else if tag = "NumericLiteral" then
      match ← content.fields? ["value"] with
      | [some value] => (Binary64.ofJson? value).map number
      | _ => none
    else none
  | _, _ => none

end Expr

namespace Declaration

def toJson (literal : Binary64 → Json) (d : Declaration) : Json :=
  .record [("is_constant", .bool d.constant), ("identifier", .ofString d.name),
    ("value", (d.value.map (Expr.toJson literal)).getD .null)]

/-- The value may be missing or null if there is none. -/
def ofJson? : Nat → Json → Option Declaration
  | room + 1, json => do
    match ← json.fields? ["is_constant", "identifier", "value"] with
    | [some (.bool constant), some (.text (some name)), none] => pure ⟨constant, name, none⟩
    | [some (.bool constant), some (.text (some name)), some .null] =>
      pure ⟨constant, name, none⟩
    | [some (.bool constant), some (.text (some name)), some value] =>
      let value ← Expr.ofJson? room value
      pure ⟨constant, name, some value⟩
    | _ => none
  | 0, _ => none

end Declaration

namespace Statement

def toJson (literal : Binary64 → Json) : Statement → Json
  | declaration d => .tagged "VarDeclaration" (d.toJson literal)
  | expression e => .tagged "Expr" (e.toJson literal)

def ofJson? : Nat → Json → Option Statement
  | room + 1, json => do
    let (tag, content) ← json.case?
    if tag = "VarDeclaration" then (Declaration.ofJson? room content).map declaration
    else if tag = "Expr" then (Expr.ofJson? room content).map expression
    else none
  | 0, _ => none

end Statement

namespace Program

def toJson (literal : Binary64 → Json) (p : Program) : Json :=
  .record [("body", .array (p.body.map (Statement.toJson literal)))]

def ofJson? : Nat → Json → Option Program
  | room + 2, json => do
    match ← json.fields? ["body"] with
    | [some (.array items)] =>
      let body ← items.mapM (Statement.ofJson? room)
      pure ⟨body⟩
    | _ => none
  | _, _ => none

/-- How many arrays and objects may stand inside each other in a text. -/
def jsonRoom : Nat := 127

def ofJsonText? (s : String) : Option Program := (Json.ofText? s).bind (ofJson? jsonRoom)

end Program

end LetArith
