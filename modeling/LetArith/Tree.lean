import LetArith.Operator
import LetArith.Number.Numeral

/-! Programs: statements in order, each a declaration or an expression.  Two trees are equal
as values when they agree bit for bit; `agrees` compares their numbers as numbers. -/

namespace LetArith

inductive NodeKind where
  | program
  | declaration
  | binary
  | identifier
  | number
  deriving DecidableEq

namespace NodeKind

def name : NodeKind → String
  | program => "Program"
  | declaration => "VarDeclaration"
  | binary => "BinaryExpr"
  | identifier => "Identifier"
  | number => "NumericLiteral"

def all : List NodeKind := [program, declaration, binary, identifier, number]

def ofName? (s : String) : Option NodeKind := all.find? (fun k => k.name == s)

end NodeKind

inductive Expr where
  | binary (left : Expr) (op : Operator) (right : Expr)
  | identifier (symbol : String)
  | number (value : Binary64)
  deriving DecidableEq

namespace Expr

def kind : Expr → NodeKind
  | binary _ _ _ => .binary
  | identifier _ => .identifier
  | number _ => .number

/-- The tier of the outermost operator; a tree without one is primary. -/
def tier : Expr → Tier
  | binary _ op _ => op.tier
  | identifier _ => .primary
  | number _ => .primary

/-- The numbers of a tree from left to right. -/
def numbers : Expr → List Binary64
  | binary left _ right => left.numbers ++ right.numbers
  | identifier _ => []
  | number value => [value]

def agrees : Expr → Expr → Bool
  | binary l op r, binary l' op' r' => l.agrees l' && op == op' && r.agrees r'
  | identifier s, identifier s' => s == s'
  | number x, number x' => x.numEq x'
  | _, _ => false

theorem agrees_self {e : Expr} (h : ∀ x ∈ e.numbers, x.isFinite = true) : e.agrees e = true := by
  induction e with
  | binary l op r ihl ihr =>
    have hl := ihl (fun x hx => h x (by simp [numbers, hx]))
    have hr := ihr (fun x hx => h x (by simp [numbers, hx]))
    simp [agrees, hl, hr]
  | identifier s => simp [agrees]
  | number x => simp [agrees, h x (by simp [numbers])]

end Expr

structure Declaration where
  constant : Bool
  name : String
  value : Option Expr
  deriving DecidableEq

namespace Declaration

def agrees (a b : Declaration) : Bool :=
  a.constant == b.constant && a.name == b.name &&
    match a.value, b.value with
    | some x, some y => x.agrees y
    | none, none => true
    | _, _ => false

end Declaration

inductive Statement where
  | declaration (d : Declaration)
  | expression (e : Expr)
  deriving DecidableEq

namespace Statement

def kind : Statement → NodeKind
  | declaration _ => .declaration
  | expression e => e.kind

def isExpression : Statement → Bool
  | expression _ => true
  | declaration _ => false

def numbers : Statement → List Binary64
  | declaration d => d.value.elim [] Expr.numbers
  | expression e => e.numbers

def agrees : Statement → Statement → Bool
  | declaration a, declaration b => a.agrees b
  | expression a, expression b => a.agrees b
  | _, _ => false

theorem agrees_self {s : Statement} (h : ∀ x ∈ s.numbers, x.isFinite = true) :
    s.agrees s = true := by
  cases s with
  | declaration d =>
    obtain ⟨constant, name, value⟩ := d
    cases value with
    | none => simp [agrees, Declaration.agrees]
    | some e => simpa [agrees, Declaration.agrees] using Expr.agrees_self h
  | expression e => exact Expr.agrees_self h

end Statement

structure Program where
  body : List Statement
  deriving DecidableEq

namespace Program

def kind (_ : Program) : NodeKind := .program

def numbers (p : Program) : List Binary64 := p.body.flatMap Statement.numbers

def bodiesAgree : List Statement → List Statement → Bool
  | [], [] => true
  | s :: ss, t :: ts => s.agrees t && bodiesAgree ss ts
  | _, _ => false

def agrees (p q : Program) : Bool := bodiesAgree p.body q.body

theorem bodiesAgree_self {ss : List Statement} (h : ∀ s ∈ ss, s.agrees s = true) :
    bodiesAgree ss ss = true := by
  induction ss with
  | nil => rfl
  | cons s ss ih => simp_all [bodiesAgree]

theorem agrees_self {p : Program} (h : ∀ x ∈ p.numbers, x.isFinite = true) :
    p.agrees p = true :=
  bodiesAgree_self (fun _ hs => Statement.agrees_self
    (fun x hx => h x (List.mem_flatMap.2 ⟨_, hs, hx⟩)))

end Program

end LetArith
