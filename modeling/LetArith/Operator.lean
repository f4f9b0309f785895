/-! The five binary operators and the tiers of precedence, from the loosest to the
tightest.  Each operator has one spelling, and its spelling decides it. -/

namespace LetArith

inductive Tier where
  | additive
  | multiplicative
  | primary
  deriving DecidableEq

namespace Tier

def rank : Tier → Nat
  | additive => 0
  | multiplicative => 1
  | primary => 2

instance : LT Tier := ⟨fun a b => a.rank < b.rank⟩
instance : LE Tier := ⟨fun a b => a.rank ≤ b.rank⟩
instance : DecidableLT Tier := fun a b => inferInstanceAs (Decidable (a.rank < b.rank))
instance : DecidableLE Tier := fun a b => inferInstanceAs (Decidable (a.rank ≤ b.rank))

end Tier

inductive Operator where
  | add
  | subtract
  | multiply
  | divide
  | modulo
  deriving DecidableEq

namespace Operator

def all : List Operator := [add, subtract, multiply, divide, modulo]

def tier : Operator → Tier
  | add | subtract => .additive
  | multiply | divide | modulo => .multiplicative

theorem tier_lt_primary (op : Operator) : op.tier < Tier.primary := by cases op <;> decide

def lexeme : Operator → String
  | add => "+"
  | subtract => "-"
  | multiply => "*"
  | divide => "/"
  | modulo => "%"

def ofLexeme? (s : String) : Option Operator := all.find? (fun op => op.lexeme == s)

@[simp] theorem ofLexeme?_lexeme (op : Operator) : ofLexeme? op.lexeme = some op := by
  cases op <;> decide

theorem lexeme_of_ofLexeme? {s : String} {op : Operator} (h : ofLexeme? s = some op) :
    op.lexeme = s := by
  simpa using List.find?_some h

end Operator

end LetArith
