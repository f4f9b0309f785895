import LetArith.Grammar.Rules
import LetArith.Grammar.Parse
import LetArith.Tree

/-! Expressions.  A chain is operands of one tier with operators between them, grouped to the
left; the operands of an additive chain are multiplicative chains, and theirs are primary:
names, numbers, and groups in parentheses, which leave nothing in the tree.  Groups may stand
inside each other only as long as there is room. -/

namespace LetArith

namespace Expr

/-- Goes on from the operand `left` while operators of the chain follow.  Every step passes a
token, so a bound above the number of tokens left is never met. -/
def chainFrom (operator? : Token → Option Operator) (operand : Parse Expr) :
    Nat → Expr → Parse Expr
  | 0, left => pure left
  | bound + 1, left => do
    match operator? (← Parse.place).peek with
    | none => pure left
    | some op =>
      let _ ← Parse.advance
      let right ← operand
      chainFrom operator? operand bound (binary left op right)

def chain (operator? : Token → Option Operator) (operand : Parse Expr) : Parse Expr := do
  let first ← operand
  chainFrom operator? operand ((← Parse.place).remaining + 1) first

def multiplicative (rules : Rules) (primary : Parse Expr) : Parse Expr :=
  chain (rules.matching.operator? .multiplicative) primary

def additive (rules : Rules) (primary : Parse Expr) : Parse Expr :=
  chain (rules.matching.operator? .additive) (multiplicative rules primary)

def readIdentifier : Parse Expr := do
  let t ← Parse.expect .identifier .notAnOperand
  pure (identifier t.text)

/-- The token at the place as a number.  Its text must denote a finite one. -/
def readNumber : Parse Expr := do
  let t ← Parse.expect .number .notAnOperand
  match Binary64.finiteOfText? t.text with
  | some x => pure (number x)
  | none => Parse.fail (.badNumber t)

/-- A group where there is no room for one. -/
def refusedGroup : Parse Expr := do
  let t ← Parse.advance
  Parse.inGroup (Parse.fail (.unexpected t .nestedTooDeeply))

def groupOf (inner : Parse Expr) : Parse Expr := do
  let _ ← Parse.advance
  Parse.inGroup do
    let e ← inner
    let _ ← Parse.expect .closeParen .groupNotClosed
    pure e

/-- A primary expression, with `group` for those that open a group. -/
def operand (rules : Rules) (group : Parse Expr) : Parse Expr := do
  let t := (← Parse.place).peek
  match rules.operand? t.kind with
  | some .name => readIdentifier
  | some .number => readNumber
  | some .group => group
  | none => Parse.fail (.unexpected t .notAnOperand)

/-- A primary expression where `room` more groups may be opened inside each other.  The parser
of a group is formed only at a place that opens one, so a large room costs nothing. -/
def primary (rules : Rules) : Nat → Parse Expr
  | 0 => fun c => operand rules refusedGroup c
  | room + 1 => fun c => operand rules (groupOf (additive rules (primary rules room))) c

def readGroup (rules : Rules) : Nat → Parse Expr
  | 0 => refusedGroup
  | room + 1 => groupOf (additive rules (primary rules room))

theorem primary_eq (rules : Rules) (room : Nat) :
    primary rules room = operand rules (readGroup rules room) := by
  cases room <;> rfl

def read (rules : Rules) (room : Nat) : Parse Expr := additive rules (primary rules room)

end Expr

end LetArith
