import LetArith.Number.Decimal

/-! The double-precision binary numbers, and rounding to them.

A finite one is a sign and a rank: the finite magnitudes in increasing order are numbered
from zero, so that the rank is also the pattern of bits below the sign.  All magnitudes are
whole multiples of the least one, `2 ^ -1074`, and a rank has a significand below `2 ^ 53`
and a scale with `significand * 2 ^ scale` such multiples. -/

namespace LetArith

/-- How many finite magnitudes there are: the first pattern of bits after them is infinity. -/
abbrev Binary64.rankCount : Nat := 0x7ff0000000000000

abbrev Binary64.Rank := Fin Binary64.rankCount

inductive Binary64 where
  | nan
  | infinite (negative : Bool)
  | finite (negative : Bool) (rank : Binary64.Rank)
  deriving DecidableEq

namespace Binary64

def zero : Binary64 := finite false ⟨0, by decide⟩

def isFinite : Binary64 → Bool
  | finite _ _ => true
  | _ => false

def negate : Binary64 → Binary64
  | nan => nan
  | infinite negative => infinite (!negative)
  | finite negative rank => finite (!negative) rank

/-- The pattern of bits: sign, eleven bits of exponent, 52 bits of fraction. -/
def bits : Binary64 → Nat
  | nan => 0x7ff8000000000000
  | infinite negative => rankCount + if negative then 2 ^ 63 else 0
  | finite negative rank => rank + if negative then 2 ^ 63 else 0

/-- Equality of numbers: a NaN equals nothing, and the two zeros are equal. -/
def numEq : Binary64 → Binary64 → Bool
  | finite s a, finite t b => decide (a = b ∧ (s = t ∨ a.val = 0))
  | infinite s, infinite t => decide (s = t)
  | _, _ => false

@[simp] theorem numEq_self {x : Binary64} (h : x.isFinite = true) : numEq x x = true := by
  cases x <;> simp_all [isFinite, numEq]

def scale (rank : Nat) : Nat := rank / 2 ^ 52 - 1

def significand (rank : Nat) : Nat := rank - scale rank * 2 ^ 52

theorem scale_mul_add_significand (rank : Nat) :
    scale rank * 2 ^ 52 + significand rank = rank := by
  have h : scale rank * 2 ^ 52 ≤ rank :=
    Nat.le_trans (Nat.mul_le_mul_right _ (Nat.sub_le _ _)) (Nat.div_mul_le_self rank (2 ^ 52))
  unfold significand
  omega

theorem significand_lt (rank : Nat) : significand rank < 2 ^ 53 := by
  unfold significand scale
  omega

theorem le_significand {rank : Nat} (h : 0 < scale rank) : 2 ^ 52 ≤ significand rank := by
  unfold significand scale at *
  omega

/-- The quotient to the nearest whole number, a half to the even neighbour. -/
def roundDiv (n d : Nat) : Nat :=
  let q := n / d
  let r := n % d
  if 2 * r < d ∨ (2 * r = d ∧ q % 2 = 0) then q else q + 1

theorem roundDiv_mul_self (q : Nat) {d : Nat} (h : 0 < d) : roundDiv (q * d) d = q := by
  simp [roundDiv, Nat.mul_div_cancel q h, h]

/-- The rank nearest to `n / d` least magnitudes.  A significand that rounds up to `2 ^ 53`
gives the first rank of the next scale, so the sum needs no carry of its own. -/
def nearestRank (n d : Nat) : Nat :=
  let k := (n / d).log2 - 52
  k * 2 ^ 52 + roundDiv n (d * 2 ^ k)

/-- A magnitude `num / den`, rounded: infinite from half a step above the greatest one on. -/
def ofRatio (negative : Bool) (num den : Nat) : Binary64 :=
  let rank := nearestRank (num * 2 ^ 1074) den
  if h : rank < rankCount then finite negative ⟨rank, h⟩ else infinite negative

/-- The nearest number to a decimal.  Decimals from `10 ^ 309` on and decimals below
`2 ^ -1076` are told by the sizes of their parts, before any power of ten is formed. -/
def ofDecimal (negative : Bool) (d : Decimal) : Binary64 :=
  let small := finite negative ⟨0, by decide⟩
  if d.digits = 0 then small
  else match d.exponent with
    | .ofNat e =>
      if 309 ≤ e then infinite negative else ofRatio negative (d.digits * 10 ^ e) 1
    | .negSucc e =>
      if d.digits.log2 + 1077 ≤ 3 * (e + 1) then small
      else ofRatio negative d.digits (10 ^ (e + 1))

end Binary64

end LetArith
