import LetArith.Grammar.Statement

/-! A parser one can stop and go on with: the place, the rules, and how many groups are open.
A failure leaves the groups open that it happened in. -/

namespace LetArith

structure Parser where
  cursor : Cursor
  rules : Rules
  depth : Nat
  maxDepth : Nat

namespace Parser

def ofTokens (rules : Rules) (maxDepth : Nat) (ts : List Token) : Parser :=
  ⟨Cursor.ofTokens ts, rules, 0, maxDepth⟩

/-- How many more groups may be opened inside each other. -/
def room (p : Parser) : Nat := p.maxDepth - p.depth

def run {α : Type} (p : Parser) (parse : Rules → Nat → Parse α) :
    Except Diagnostic α × Parser :=
  match parse p.rules p.room p.cursor with
  | .ok (a, c) => (.ok a, { p with cursor := c })
  | .error f => (.error f.diagnostic, { p with cursor := f.cursor, depth := p.depth + f.opened })

/-- Open a group at a token.  The group counts as open even where it is refused. -/
def enterGroup (p : Parser) (opening : Token) : Except Diagnostic Unit × Parser :=
  let entered := { p with depth := p.depth + 1 }
  if entered.depth > p.maxDepth then (.error (.unexpected opening .nestedTooDeeply), entered)
  else (.ok (), entered)

/-- Leave a group, if one is open. -/
def exitGroup (p : Parser) : Parser := { p with depth := p.depth - 1 }

def operator? (p : Parser) (tier : Tier) : Option Operator :=
  p.rules.matching.operator? tier p.cursor.peek

def starters (p : Parser) : List Kind × List Kind :=
  (Kind.all.filter (fun k => (p.rules.operand? k).isSome), Kind.all.filter p.rules.declares)

end Parser

end LetArith
