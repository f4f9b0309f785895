import LetArith.Tree

/-! Trees as text: single spaces around operators, one statement a line, and only the
parentheses that precedence and the grouping to the left call for. -/

namespace LetArith

/-- The text, in parentheses if they are needed. -/
def parenthesised (needed : Bool) (text : String) : String :=
  if needed then "(" ++ text ++ ")" else text

namespace Expr

/-- An operand on the left needs parentheses if it is looser than the operator, and one on
the right also if it is just as loose. -/
def text : Expr → String
  | binary left op right =>
    parenthesised (left.tier < op.tier) left.text ++ " " ++ op.lexeme ++ " " ++
      parenthesised (right.tier ≤ op.tier) right.text
  | identifier symbol => symbol
  | number value => value.text

end Expr

namespace Declaration

def keyword (d : Declaration) : String := if d.constant then "const" else "let"

def text (d : Declaration) : String :=
  match d.value with
  | some e => d.keyword ++ " " ++ d.name ++ " = " ++ e.text ++ ";"
  | none => d.keyword ++ " " ++ d.name ++ ";"

end Declaration

namespace Statement

def text : Statement → String
  | declaration d => d.text
  | expression e => e.text

end Statement

namespace Program

def text (p : Program) : String := "\n".intercalate (p.body.map Statement.text)

end Program

end LetArith
