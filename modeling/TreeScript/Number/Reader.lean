import TreeScript.Number.Binary

/-!
# Reading numbers

The grammar of the numbers that text may hold, and their values.  An integer is an optional sign
and at least one ASCII digit.  A float is an optional sign and then `inf`, `infinity` or `nan` in
any case, or digits with at most one point among or around them, at least one digit, and an optional
exponent; its value is rounded once, to the nearest float.  An exponent is bounded: see
`exponentSize`.
-/

namespace TreeScript

namespace Reader

/-- The value of a run of digits after digits worth `value`. -/
def digitsFrom (value : Nat) (ds : List Char) : Nat :=
  ds.foldl (fun n c => 10 * n + (c.toNat - '0'.toNat)) value

/-- The digits that a text starts with, and what follows them. -/
def spanDigits (cs : List Char) : List Char × List Char := cs.span Char.isDigit

/-- A sign that a text starts with, as "is negative", and what follows it. -/
def sign : List Char → Bool × List Char
  | '-' :: cs => (true, cs)
  | '+' :: cs => (false, cs)
  | cs => (false, cs)

/-- The integer that a text is. -/
def int? (text : List Char) : Option Int :=
  let (negative, ds) := sign text
  if ds.isEmpty ∨ !ds.all Char.isDigit then none
  else
    let n := digitsFrom 0 ds
    some (if negative then -(n : Int) else n)

/-- The size of an exponent: its digits are read for as long as what they are worth is below 65536,
and the digits after that are passed over.  What is kept of a larger size still lies beyond every
float, unless the number has tens of thousands of places itself. -/
def exponentSize (ds : List Char) : Nat :=
  ds.foldl (fun n c => if n < 65536 then 10 * n + (c.toNat - '0'.toNat) else n) 0

/-- The exponent that a text is, if it is nothing or an `e` and an integer. -/
def exponent? : List Char → Option Int
  | [] => some 0
  | c :: cs =>
    if c = 'e' ∨ c = 'E' then
      let (negative, ds) := sign cs
      if ds.isEmpty ∨ !ds.all Char.isDigit then none
      else
        let n := exponentSize ds
        some (if negative then -(n : Int) else n)
    else none

/-- The digits of a number and the power of ten of the last of them. -/
def decimal? (text : List Char) : Option (List Char × Int) := do
  let (whole, rest) := spanDigits text
  let (fraction, rest) :=
    match rest with
    | '.' :: rest => spanDigits rest
    | rest => ([], rest)
  guard !(whole.isEmpty && fraction.isEmpty)
  let e ← exponent? rest
  return (whole ++ fraction, e - fraction.length)

/-- The bits of the float nearest to `ds · 10^e`.

A number of 400 places or more before the point is infinite and one with 400 zeros after it is zero
in either format, whatever its digits are. -/
def round (f : BinaryFormat) (negative : Bool) (ds : List Char) (e : Int) : Nat :=
  let ds := ds.dropWhile (· == '0')
  let size := ds.length + e
  if ds.isEmpty ∨ size < -400 then f.signOf negative
  else if 400 < size then f.signOf negative + f.infinity
  else
    let n := digitsFrom 0 ds
    f.encode negative (n * 10 ^ e.toNat) (10 ^ (-e).toNat)

/-- The float that a text is. -/
def float? (f : BinaryFormat) (text : List Char) : Option Nat :=
  let (negative, cs) := sign text
  let word := String.ofList (cs.map Char.toLower)
  if word = "inf" ∨ word = "infinity" then some (f.signOf negative + f.infinity)
  else if word = "nan" then some (f.signOf negative + f.infinity + 2 ^ (f.fraction - 1))
  else (decimal? cs).map fun (ds, e) => round f negative ds e

end Reader

end TreeScript
