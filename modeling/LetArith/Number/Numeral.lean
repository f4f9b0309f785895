import LetArith.Number.Shortest

/-! Doubles as text.  Reading takes a sign, decimals, and the words for the numbers that are
not finite, in any mixture of cases.  Writing takes the shortest digits, in positional
notation, and has a sign for the negative zero too. -/

namespace LetArith.Binary64

def magnitude? (negative : Bool) (cs : List Char) : Option Binary64 :=
  let word := cs.map Char.toLower
  if word = ['i', 'n', 'f'] ∨ word = ['i', 'n', 'f', 'i', 'n', 'i', 't', 'y'] then
    some (infinite negative)
  else if word = ['n', 'a', 'n'] then some nan
  else (Decimal.ofText? cs).map (ofDecimal negative)

def ofText? (s : String) : Option Binary64 :=
  match s.toList with
  | '+' :: cs => magnitude? false cs
  | '-' :: cs => magnitude? true cs
  | cs => magnitude? false cs

/-- The number a text denotes, if it denotes a finite one. -/
def finiteOfText? (s : String) : Option Binary64 := (ofText? s).filter isFinite

theorem isFinite_of_finiteOfText? {s : String} {x : Binary64} (h : finiteOfText? s = some x) :
    x.isFinite = true := (Option.filter_eq_some_iff.1 h).2

def sign (negative : Bool) : String := if negative then "-" else ""

def text : Binary64 → String
  | nan => "NaN"
  | infinite negative => sign negative ++ "inf"
  | finite negative rank => sign negative ++ String.ofList (shortest rank).text

end LetArith.Binary64
