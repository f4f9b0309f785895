import LetArith.Json.Value

/-! JSON from its text: the strict grammar, with nothing but blanks around the value. -/

namespace LetArith.Json

def isSpace (c : Char) : Bool := c == ' ' || c == '\t' || c == '\n' || c == '\r'

def skipSpace (cs : List Char) : List Char := cs.dropWhile isSpace

def hexDigit? (c : Char) : Option Nat :=
  let n := c.toNat
  if 48 ≤ n ∧ n ≤ 57 then some (n - 48)
  else if 65 ≤ n ∧ n ≤ 70 then some (n - 55)
  else if 97 ≤ n ∧ n ≤ 102 then some (n - 87)
  else none

def unit? (a b c d : Char) : Option Nat := do
  let a ← hexDigit? a
  let b ← hexDigit? b
  let c ← hexDigit? c
  let d ← hexDigit? d
  pure (((a * 16 + b) * 16 + c) * 16 + d)

def escape? : Char → Option Char
  | '"' => some '"'
  | '\\' => some '\\'
  | '/' => some '/'
  | 'b' => some '\x08'
  | 'f' => some '\x0c'
  | 'n' => some '\n'
  | 'r' => some '\r'
  | 't' => some '\t'
  | _ => none

/-- The codes of a text up to its closing quote, and the characters after it.  A character is
its code point, and an escape with four digits is the unit of UTF-16 that it names. -/
def codes? : List Char → Option (List Nat × List Char)
  | [] => none
  | '"' :: cs => some ([], cs)
  | '\\' :: 'u' :: a :: b :: c :: d :: cs => do
    let n ← unit? a b c d
    let r ← codes? cs
    pure (n :: r.1, r.2)
  | '\\' :: e :: cs => do
    let c ← escape? e
    let r ← codes? cs
    pure (c.toNat :: r.1, r.2)
  | c :: cs =>
    if c = '\\' ∨ c.toNat < 0x20 then none
    else (codes? cs).map (fun r => (c.toNat :: r.1, r.2))

def isHighSurrogate (n : Nat) : Bool := 0xd800 ≤ n && n ≤ 0xdbff

def isLowSurrogate (n : Nat) : Bool := 0xdc00 ≤ n && n ≤ 0xdfff

/-- The characters that codes form.  A high surrogate needs a low one after it, and a low one
needs a high one before it. -/
def characters? : List Nat → Option (List Char)
  | [] => some []
  | [n] => if isHighSurrogate n || isLowSurrogate n then none else some [Char.ofNat n]
  | n :: m :: rest =>
    if isHighSurrogate n then
      if isLowSurrogate m then
        (characters? rest).map
          (Char.ofNat (0x10000 + (n - 0xd800) * 0x400 + (m - 0xdc00)) :: ·)
      else none
    else if isLowSurrogate n then none
    else (characters? (m :: rest)).map (Char.ofNat n :: ·)

/-- A text whose opening quote has been passed. -/
def string? (cs : List Char) : Option (Option String × List Char) :=
  (codes? cs).map (fun r => ((characters? r.1).map String.ofList, r.2))

def exponent? : List Char → Option (Int × List Char)
  | mark :: cs =>
    if mark = 'e' ∨ mark = 'E' then
      let negative := cs.head? = some '-'
      let cs := if cs.head? = some '-' ∨ cs.head? = some '+' then cs.tail else cs
      let digits := cs.takeWhile Char.isDigit
      let size := Int.ofNat (Nat.ofDigitChars 10 digits 0)
      if digits = [] then none
      else some (if negative then - size else size, cs.dropWhile Char.isDigit)
    else some (0, mark :: cs)
  | [] => some (0, [])

def fraction? : List Char → Option (List Char × List Char)
  | '.' :: cs =>
    let digits := cs.takeWhile Char.isDigit
    if digits = [] then none else some (digits, cs.dropWhile Char.isDigit)
  | cs => some ([], cs)

/-- A number after its sign.  A zero in front stands alone. -/
def magnitude? (negative : Bool) (cs : List Char) : Option (Json × List Char) := do
  let whole := cs.takeWhile Char.isDigit
  if whole = [] ∨ (whole.head? = some '0' ∧ whole ≠ ['0']) then none
  let (fraction, cs) ← fraction? (cs.dropWhile Char.isDigit)
  let (exponent, cs) ← exponent? cs
  let digits := Nat.ofDigitChars 10 (whole ++ fraction) 0
  pure (number negative ⟨digits, exponent - fraction.length⟩, cs)

mutual

/-- A value that starts at the first of the characters.  The bound limits nested calls, of
which there are never more than twice the number of characters. -/
def value? : Nat → List Char → Option (Json × List Char)
  | 0, _ => none
  | bound + 1, cs =>
    match cs with
    | 'n' :: 'u' :: 'l' :: 'l' :: cs => some (null, cs)
    | 't' :: 'r' :: 'u' :: 'e' :: cs => some (bool true, cs)
    | 'f' :: 'a' :: 'l' :: 's' :: 'e' :: cs => some (bool false, cs)
    | '"' :: cs => (string? cs).map (fun r => (text r.1, r.2))
    | '-' :: cs => magnitude? true cs
    | '[' :: cs =>
      match skipSpace cs with
      | ']' :: cs => some (array [], cs)
      | cs => (items? bound cs).map (fun r => (array r.1, r.2))
    | '\x7b' :: cs =>
      match skipSpace cs with
      | '\x7d' :: cs => some (object [], cs)
      | cs => (members? bound cs).map (fun r => (object r.1, r.2))
    | cs => magnitude? false cs

/-- The rest of an array, from the start of an item on. -/
def items? : Nat → List Char → Option (List Json × List Char)
  | 0, _ => none
  | bound + 1, cs => do
    let (item, cs) ← value? bound cs
    match skipSpace cs with
    | ',' :: cs =>
      let (items, cs) ← items? bound (skipSpace cs)
      pure (item :: items, cs)
    | ']' :: cs => pure ([item], cs)
    | _ => none

/-- The rest of an object, from the start of a name on. -/
def members? : Nat → List Char → Option (List (Option String × Json) × List Char)
  | 0, _ => none
  | bound + 1, cs =>
    match cs with
    | '"' :: cs => do
      let (name, cs) ← string? cs
      match skipSpace cs with
      | ':' :: cs =>
        let (item, cs) ← value? bound (skipSpace cs)
        match skipSpace cs with
        | ',' :: cs =>
          let (members, cs) ← members? bound (skipSpace cs)
          pure ((name, item) :: members, cs)
        | '\x7d' :: cs => pure ([(name, item)], cs)
        | _ => none
      | _ => none
    | _ => none

end

def ofText? (s : String) : Option Json := do
  let cs := skipSpace s.toList
  let (value, rest) ← value? (2 * cs.length + 2) cs
  if skipSpace rest = [] then some value else none

end LetArith.Json
