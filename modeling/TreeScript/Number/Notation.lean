import TreeScript.Number.Shortest

/-!
# Written numbers

A float is written with the fewest digits that read back.  Two written forms are in use.  The
*script text* is positional from `0.001` up to below ten million and scientific elsewhere, and
always has a decimal point with a digit after it (`5.0`, `1.0E10`, `1.5E-5`).  The *plain text* is
positional throughout and adds no point to a whole number.
-/

namespace TreeScript

namespace Decimal

/-- The digits of a decimal, most significant first. -/
def digitText (d : Decimal) : List Char := Nat.toDigits 10 d.digits

/-- The exponent of the first digit. -/
def magnitude (d : Decimal) : Int := d.exponent + d.digitText.length - 1

/-- Positional notation: no exponent, and a point only before digits that it needs. -/
def positional (d : Decimal) : String :=
  let ds := d.digitText
  let places := (-d.exponent).toNat
  String.ofList <|
    if 0 ≤ d.exponent then ds ++ List.replicate d.exponent.toNat '0'
    else if places < ds.length then ds.take (ds.length - places) ++ '.' :: ds.drop (ds.length - places)
    else '0' :: '.' :: List.replicate (places - ds.length) '0' ++ ds

/-- A whole number is given a point and a zero. -/
def withPoint (text : String) : String := if text.contains '.' then text else text ++ ".0"

/-- Scientific notation: one digit before the point and at least one after it. -/
def scientific (d : Decimal) : String :=
  match d.digitText with
  | [] => ""
  | first :: rest =>
    String.ofList (first :: '.' :: (if rest.isEmpty then ['0'] else rest)) ++ "E" ++
      toString d.magnitude

/-- Script text: scientific notation for what is below `10^-3` or not below `10^7`. -/
def scriptText (d : Decimal) : String :=
  if -3 ≤ d.magnitude ∧ d.magnitude < 7 then withPoint d.positional else d.scientific

end Decimal

namespace BinaryFormat

/-- How a format of written numbers spells what has no digits, and the rest. -/
structure Spelling where
  infinity : String
  zero : String
  number : Decimal → String

/-- Script text. -/
def Spelling.script : Spelling := ⟨"Infinity", "0.0", Decimal.scriptText⟩

/-- Plain text. -/
def Spelling.plain : Spelling := ⟨"inf", "0", Decimal.positional⟩

/-- The text of a float. -/
def write (f : BinaryFormat) (spelling : Spelling) (bits : Nat) : String :=
  let sign := if f.isNegative bits then "-" else ""
  match f.magnitude bits with
  | .nan => "NaN"
  | .infinite => sign ++ spelling.infinity
  | .finite m q =>
    sign ++ if m = 0 then spelling.zero else spelling.number (Decimal.shortest f m q)

end BinaryFormat

/-- The script text of a double. -/
def Binary64.scriptText (x : Binary64) : String :=
  BinaryFormat.double.write .script x.bits.toNat

/-- The plain text of a double. -/
def Binary64.plainText (x : Binary64) : String :=
  BinaryFormat.double.write .plain x.bits.toNat

/-- The script text of a float. -/
def Binary32.scriptText (x : Binary32) : String :=
  BinaryFormat.single.write .script x.bits.toNat

/-- The plain text of a float. -/
def Binary32.plainText (x : Binary32) : String :=
  BinaryFormat.single.write .plain x.bits.toNat

end TreeScript
