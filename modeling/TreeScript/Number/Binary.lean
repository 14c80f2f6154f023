/-!
# Binary floating point

A float is kept as its bits, so that two floats are told apart exactly when their bits differ.
`BinaryFormat` describes the layout of the two formats in use; `magnitude` reads a finite number as
`m · 2^q`, and `encode` rounds any quotient of naturals to the nearest float, a tie to the even
neighbour.  What is not arithmetic proper (widening, narrowing, conversion from and to integers,
remainder) is done in exact integer arithmetic through these two.
-/

namespace TreeScript

/-- A power with a natural exponent is the base type's own `NatPow`, whatever other powers are in
scope, so that a number is the same term in every module that computes it. -/
scoped instance (priority := 2000) naturalPower {α : Type} [NatPow α] : Pow α Nat := instPowNat

/-- A single-precision float by its bits. -/
structure Binary32 where
  bits : UInt32
  deriving DecidableEq, Repr, Inhabited

/-- A double-precision float by its bits. -/
structure Binary64 where
  bits : UInt64
  deriving DecidableEq, Repr, Inhabited

/-! ## Layout -/

/-- A sign bit, then `exponent` bits of biased exponent, then `fraction` bits of fraction. -/
structure BinaryFormat where
  fraction : Nat
  exponent : Nat

/-- What the bits below the sign bit say. -/
inductive Magnitude where
  | nan
  | infinite
  /-- The number `m · 2^q`. -/
  | finite (m : Nat) (q : Int)
  deriving DecidableEq, Repr

namespace BinaryFormat

/-- The layout of `Binary32`. -/
def single : BinaryFormat := ⟨23, 8⟩

/-- The layout of `Binary64`. -/
def double : BinaryFormat := ⟨52, 11⟩

variable (f : BinaryFormat)

/-- The power of two that the smallest positive number of the format is. -/
def minExponent : Int := 2 - 2 ^ (f.exponent - 1) - f.fraction

/-- The value of the sign bit. -/
def signBit : Nat := 2 ^ (f.fraction + f.exponent)

/-- The bits of positive infinity, above which lie only the bits of no number. -/
def infinity : Nat := (2 ^ f.exponent - 1) * 2 ^ f.fraction

/-- Whether the sign bit is set. -/
def isNegative (bits : Nat) : Bool := f.signBit ≤ bits

/-- The bits with the sign bit cleared. -/
def unsigned (bits : Nat) : Nat := bits % f.signBit

/-- The number a float stands for, without its sign. -/
def magnitude (bits : Nat) : Magnitude :=
  let field := f.unsigned bits / 2 ^ f.fraction
  let rest := bits % 2 ^ f.fraction
  if field = 2 ^ f.exponent - 1 then
    if rest = 0 then .infinite else .nan
  else if field = 0 then .finite rest f.minExponent
  else .finite (2 ^ f.fraction + rest) (f.minExponent + (field - 1))

/-- The sign bit of a number that is or is not negative. -/
def signOf (negative : Bool) : Nat := if negative then f.signBit else 0

/-! ## Rounding -/

/-- The natural number nearest to `num / den`, a tie to the even one. -/
def roundHalfEven (num den : Nat) : Nat :=
  let whole := num / den
  let twice := 2 * (num % den)
  if twice < den then whole
  else if twice = den then whole + whole % 2
  else whole + 1

/-- `num / den` in units of `2^q`, rounded. -/
def roundAt (num den : Nat) (q : Int) : Nat :=
  if 0 ≤ q then roundHalfEven num (den * 2 ^ q.toNat) else roundHalfEven (num * 2 ^ (-q).toNat) den

/-- The exponent of the last place that the format keeps of `num / den`. -/
def lastPlace (num den : Nat) : Int :=
  let estimate : Int := Nat.log2 num - Nat.log2 den - f.fraction
  let below := if 0 ≤ estimate then num < den * 2 ^ (f.fraction + estimate.toNat)
    else num * 2 ^ (-estimate).toNat < den * 2 ^ f.fraction
  max f.minExponent (if below then estimate - 1 else estimate)

/-- The bits of the float nearest to `num / den`, a tie to the even one; too large a number is
infinite. -/
def encode (negative : Bool) (num den : Nat) : Nat :=
  if num = 0 then f.signOf negative else
  let q := f.lastPlace num den
  let bits := (q - f.minExponent).toNat * 2 ^ f.fraction + roundAt num den q
  f.signOf negative + min bits f.infinity

/-- The bits of the float nearest to `m · 2^q`. -/
def encodeScaled (negative : Bool) (m : Nat) (q : Int) : Nat :=
  if 0 ≤ q then f.encode negative (m * 2 ^ q.toNat) 1 else f.encode negative m (2 ^ (-q).toNat)

/-- The bits of the float nearest to an integer. -/
def encodeInt (n : Int) : Nat := f.encode (n < 0) n.natAbs 1

/-! ## Reading back -/

/-- The integer part of a float, kept between `lo` and `hi`; what is no number counts as zero. -/
def truncate (lo hi : Int) (bits : Nat) : Int :=
  let signed (n : Int) : Int := if f.isNegative bits then -n else n
  match f.magnitude bits with
  | .nan => 0
  | .infinite => if f.isNegative bits then lo else hi
  | .finite m q =>
    max lo (min hi (signed (if 0 ≤ q then m * 2 ^ q.toNat else m / 2 ^ (-q).toNat)))

/-- What is left of `x` after taking away as many whole `y` as fit, with the sign of `x`; nothing
when `x` is infinite or `y` is zero. -/
def remainder? (x y : Nat) : Option Nat :=
  match f.magnitude x, f.magnitude y with
  | .finite _ _, .infinite => some x
  | .finite m q, .finite n r =>
    if n = 0 then none else
    let unit := min q r
    let rest := (m * 2 ^ (q - unit).toNat) % (n * 2 ^ (r - unit).toNat)
    some (f.encodeScaled (f.isNegative x) rest unit)
  | _, _ => none

/-- The bits of one format as bits of another: the nearest number, or the same non-number with the
upper part of its fraction. -/
def convert (g : BinaryFormat) (bits : Nat) : Nat :=
  match f.magnitude bits with
  | .finite m q => g.encodeScaled (f.isNegative bits) m q
  | .infinite => g.signOf (f.isNegative bits) + g.infinity
  | .nan =>
    let rest := bits % 2 ^ f.fraction * 2 ^ g.fraction / 2 ^ f.fraction
    g.signOf (f.isNegative bits) + g.infinity + (rest ||| 2 ^ (g.fraction - 1))

end BinaryFormat

/-! ## The two formats -/

namespace Binary64

/-- The number with given bits. -/
def ofNatBits (n : Nat) : Binary64 := ⟨n.toUInt64⟩

/-- The nearest number to an integer. -/
def ofInt (n : Int) : Binary64 := ofNatBits (BinaryFormat.double.encodeInt n)

/-- The machine's arithmetic number with the same bits. -/
def toFloat (x : Binary64) : Float := Float.ofBits x.bits

/-- The result of an invalid operation on numbers. -/
def invalid : Binary64 := ⟨0xfff8000000000000⟩

/-- The exponent field is full and the fraction is not empty. -/
def isNaN (x : Binary64) : Bool := BinaryFormat.double.magnitude x.bits.toNat = .nan

/-- The machine's result of an operation on `x` and `y`; a non-number is handed on. -/
def ofResult (r : Float) (x y : Binary64) : Binary64 :=
  if r.isNaN then
    if x.isNaN then ⟨x.bits ||| 0x0008000000000000⟩
    else if y.isNaN then ⟨y.bits ||| 0x0008000000000000⟩
    else invalid
  else ⟨r.toBits⟩

instance : Add Binary64 := ⟨fun x y => ofResult (x.toFloat + y.toFloat) x y⟩
instance : Sub Binary64 := ⟨fun x y => ofResult (x.toFloat - y.toFloat) x y⟩
instance : Mul Binary64 := ⟨fun x y => ofResult (x.toFloat * y.toFloat) x y⟩
instance : Div Binary64 := ⟨fun x y => ofResult (x.toFloat / y.toFloat) x y⟩

/-- Negation turns the sign bit over. -/
instance : Neg Binary64 := ⟨fun x => ⟨x.bits ^^^ 0x8000000000000000⟩⟩

/-- The remainder of a division truncated toward zero. -/
instance : Mod Binary64 := ⟨fun x y =>
  if x.isNaN then x else if y.isNaN then y else
  match BinaryFormat.double.remainder? x.bits.toNat y.bits.toNat with
  | some bits => ofNatBits bits
  | none => invalid⟩

/-- `x` to the power `y`. -/
def pow (x y : Binary64) : Binary64 := ofResult (x.toFloat.pow y.toFloat) x y

/-- Numeric equality: the two zeros are equal, and what is no number equals nothing. -/
def equal (x y : Binary64) : Bool := x.toFloat == y.toFloat

/-- Numeric order. -/
def less (x y : Binary64) : Bool := decide (x.toFloat < y.toFloat)

/-- Numeric order or equality. -/
def lessEqual (x y : Binary64) : Bool := decide (x.toFloat ≤ y.toFloat)

/-- The two zeros differ from all else in having no bit set below the sign. -/
def isZero (x : Binary64) : Bool := x.bits <<< 1 == 0

/-- The integer part, kept between `lo` and `hi`. -/
def truncate (lo hi : Int) (x : Binary64) : Int := BinaryFormat.double.truncate lo hi x.bits.toNat

end Binary64

namespace Binary32

/-- The number with given bits. -/
def ofNatBits (n : Nat) : Binary32 := ⟨n.toUInt32⟩

/-- The nearest number to an integer. -/
def ofInt (n : Int) : Binary32 := ofNatBits (BinaryFormat.single.encodeInt n)

/-- The machine's arithmetic number with the same bits. -/
def toFloat (x : Binary32) : Float32 := Float32.ofBits x.bits

/-- The result of an invalid operation on numbers. -/
def invalid : Binary32 := ⟨0xffc00000⟩

/-- The exponent field is full and the fraction is not empty. -/
def isNaN (x : Binary32) : Bool := BinaryFormat.single.magnitude x.bits.toNat = .nan

/-- The machine's result of an operation on `x` and `y`; a non-number is handed on. -/
def ofResult (r : Float32) (x y : Binary32) : Binary32 :=
  if r.isNaN then
    if x.isNaN then ⟨x.bits ||| 0x00400000⟩
    else if y.isNaN then ⟨y.bits ||| 0x00400000⟩
    else invalid
  else ⟨r.toBits⟩

instance : Add Binary32 := ⟨fun x y => ofResult (x.toFloat + y.toFloat) x y⟩
instance : Sub Binary32 := ⟨fun x y => ofResult (x.toFloat - y.toFloat) x y⟩
instance : Mul Binary32 := ⟨fun x y => ofResult (x.toFloat * y.toFloat) x y⟩
instance : Div Binary32 := ⟨fun x y => ofResult (x.toFloat / y.toFloat) x y⟩

/-- Negation turns the sign bit over. -/
instance : Neg Binary32 := ⟨fun x => ⟨x.bits ^^^ 0x80000000⟩⟩

/-- The remainder of a division truncated toward zero. -/
instance : Mod Binary32 := ⟨fun x y =>
  if x.isNaN then x else if y.isNaN then y else
  match BinaryFormat.single.remainder? x.bits.toNat y.bits.toNat with
  | some bits => ofNatBits bits
  | none => invalid⟩

/-- The same number with more places. -/
def widen (x : Binary32) : Binary64 :=
  .ofNatBits (BinaryFormat.single.convert BinaryFormat.double x.bits.toNat)

/-- Numeric equality: the two zeros are equal, and what is no number equals nothing. -/
def equal (x y : Binary32) : Bool := x.toFloat == y.toFloat

/-- Numeric order. -/
def less (x y : Binary32) : Bool := decide (x.toFloat < y.toFloat)

/-- Numeric order or equality. -/
def lessEqual (x y : Binary32) : Bool := decide (x.toFloat ≤ y.toFloat)

/-- The two zeros differ from all else in having no bit set below the sign. -/
def isZero (x : Binary32) : Bool := x.bits <<< 1 == 0

/-- The integer part, kept between `lo` and `hi`. -/
def truncate (lo hi : Int) (x : Binary32) : Int := BinaryFormat.single.truncate lo hi x.bits.toNat

end Binary32

/-- The nearest number with fewer places. -/
def Binary64.narrow (x : Binary64) : Binary32 :=
  .ofNatBits (BinaryFormat.double.convert BinaryFormat.single x.bits.toNat)

/-- `x` to the power `y`, computed with the places of a double. -/
def Binary32.pow (x y : Binary32) : Binary32 := (x.widen.pow y.widen).narrow

end TreeScript
