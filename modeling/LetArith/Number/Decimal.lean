import LetArith.Position

/-! Decimal numbers `digits * 10 ^ exponent`, without a sign, and the two ways they meet
text: written in positional notation, and read from positional or scientific notation.
Only the ASCII digits count as digits. -/

namespace LetArith

structure Decimal where
  digits : Nat
  exponent : Int
  deriving DecidableEq

namespace Decimal

/-- Take factors of ten out of `n / 10 ^ places`, as many as there are. -/
def reduce (n : Nat) : Nat → Decimal
  | 0 => ⟨n, 0⟩
  | places + 1 =>
    if n % 10 = 0 then reduce (n / 10) places else ⟨n, Int.negSucc places⟩

def trim (d : Decimal) : Decimal :=
  match d.exponent with
  | .ofNat _ => d
  | .negSucc places => reduce d.digits (places + 1)

def lastDigits : Nat → Nat → List Char
  | 0, _ => []
  | width + 1, n => lastDigits width (n / 10) ++ [Nat.digitChar (n % 10)]

@[simp] theorem length_lastDigits (width n : Nat) : (lastDigits width n).length = width := by
  induction width generalizing n with
  | zero => rfl
  | succ width ih => simp [lastDigits, ih]

/-- Positional notation, never with an exponent: whole numbers have no point, and other
numbers have digits on both sides of it. -/
def text (d : Decimal) : List Char :=
  match d.exponent with
  | .ofNat zeros => Nat.toDigits 10 (d.digits * 10 ^ zeros)
  | .negSucc places =>
    Nat.toDigits 10 (d.digits / 10 ^ (places + 1)) ++
      '.' :: lastDigits (places + 1) (d.digits % 10 ^ (places + 1))

def natural? (cs : List Char) : Option Nat :=
  if cs ≠ [] ∧ cs.all Char.isDigit then some (Nat.ofDigitChars 10 cs 0) else none

/-- What may follow the digits: nothing, or `e` and a whole number with or without a sign. -/
def exponent? : List Char → Option Int
  | [] => some 0
  | mark :: cs =>
    if mark = 'e' ∨ mark = 'E' then
      match cs with
      | '+' :: ds => (natural? ds).map Int.ofNat
      | '-' :: ds => (natural? ds).map (fun n => - Int.ofNat n)
      | ds => (natural? ds).map Int.ofNat
    else none

/-- Digits, a point and digits, then the exponent.  The point may be missing, and so may
the digits on one side of it. -/
def ofText? (cs : List Char) : Option Decimal :=
  let whole := cs.takeWhile Char.isDigit
  match cs.dropWhile Char.isDigit with
  | '.' :: rest =>
    let fraction := rest.takeWhile Char.isDigit
    if whole = [] ∧ fraction = [] then none
    else (exponent? (rest.dropWhile Char.isDigit)).map
      (fun e => ⟨Nat.ofDigitChars 10 (whole ++ fraction) 0, e - fraction.length⟩)
  | rest =>
    if whole = [] then none
    else (exponent? rest).map (fun e => ⟨Nat.ofDigitChars 10 whole 0, e⟩)

end Decimal

end LetArith
