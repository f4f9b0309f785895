import LetArith.Number.Binary64

/-! The fewest decimal digits that read back.  For one digit, then two, and so on, the two
decimals around the number on that grid are tried, the nearer one first; the first that
rounds to the number is taken.  Seventeen digits are always enough; the expansion that has
every digit stands behind them, so that the result reads back by construction. -/

namespace LetArith.Binary64

/-- All digits of the magnitude with this rank. -/
def expansion (rank : Nat) : Decimal :=
  let m := significand rank
  let k := scale rank
  if 1074 ≤ k then ⟨m * 2 ^ (k - 1074), 0⟩
  else ⟨m * 5 ^ (1074 - k), - Int.ofNat (1074 - k)⟩

/-- The neighbours of `d` on the grid of decimals with `count` digits, the nearer one first
and the upper one first where `d` lies in the middle. -/
def neighbours (d : Decimal) (count : Nat) : List Decimal :=
  let dropped := (Nat.toDigits 10 d.digits).length - count
  let step := 10 ^ dropped
  let lower : Decimal := ⟨d.digits / step, d.exponent + dropped⟩
  let upper : Decimal := ⟨d.digits / step + 1, d.exponent + dropped⟩
  if 2 * (d.digits % step) < step then [lower.trim, upper.trim] else [upper.trim, lower.trim]

def readsBack (rank : Rank) (d : Decimal) : Bool :=
  ofDecimal false d == finite false rank

/-- The first decimal that reads back, of those with seventeen digits or fewer. -/
def shortest? (rank : Rank) : Option Decimal :=
  (List.range 17).findSome?
    (fun n => (neighbours (expansion rank) (n + 1)).find? (readsBack rank))

theorem readsBack_of_shortest? {rank : Rank} {d : Decimal}
    (h : shortest? rank = some d) : readsBack rank d = true := by
  obtain ⟨n, _, hn⟩ := List.exists_of_findSome?_eq_some h
  exact List.find?_some hn

def shortest (rank : Rank) : Decimal :=
  (shortest? rank).getD (expansion rank)

end LetArith.Binary64
