import LetArith.Config
import LetArith.Operator

/-! The rules a parser consults: what the token at hand means where an operand or a statement
may start, and whether it is an operator. -/

namespace LetArith

namespace Matching

/-- The operator a token is, if it is one of this tier. -/
def operator? (m : Matching) (tier : Tier) (t : Token) : Option Operator :=
  ((m.operatorText? t).bind Operator.ofLexeme?).filter (fun op => op.tier == tier)

theorem tier_of_operator? {m : Matching} {tier : Tier} {t : Token} {op : Operator}
    (h : m.operator? tier t = some op) : op.tier = tier := by
  simpa using (Option.filter_eq_some_iff.1 h).2

end Matching

/-- How an operand is read: as the name or as the number that its token is, or as a group
that its token opens. -/
inductive OperandRule where
  | name
  | number
  | group
  deriving DecidableEq

/-- What a token means where an operand or a statement may start, and which tokens are
operators. -/
structure Rules where
  matching : Matching
  operand? : Kind → Option OperandRule
  declares : Kind → Bool

namespace Rules

def empty (matching : Matching) : Rules := ⟨matching, fun _ => none, fun _ => false⟩

def addOperand (r : Rules) (kind : Kind) (rule : OperandRule) : Rules :=
  { r with operand? := fun k => if k = kind then some rule else r.operand? k }

def addDeclaration (r : Rules) (kind : Kind) : Rules :=
  { r with declares := fun k => k == kind || r.declares k }

def standard (matching : Matching) : Rules where
  matching := matching
  operand?
    | .number => some .number
    | .identifier => some .name
    | .openParen => some .group
    | _ => none
  declares
    | .letKeyword => true
    | .constKeyword => true
    | _ => false

end Rules

end LetArith
