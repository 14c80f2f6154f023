import TreeScript.Number.Binary

/-!
# The fewest digits that read back

A float stands for every real that rounds to it.  Its shortest decimal is the coarsest one in that
interval: on the grids `10^p · ℤ`, from coarse to fine, the first grid with a point in the interval
wins.  If a grid has such a point then one of the two grid points next to the value is one, since
the value lies in the interval; of two hits the nearer is taken, and of two equally near the larger.
-/

namespace TreeScript

/-- The decimal number `digits · 10^exponent`. -/
structure Decimal where
  digits : Nat
  exponent : Int
  deriving DecidableEq, Repr, Inhabited

/-- The reals that round to a positive number: the number is `value / den`, and the ends are
`low / den` and `high / den`, which belong to the interval when `closed`. -/
structure RoundingInterval where
  low : Nat
  value : Nat
  high : Nat
  den : Nat
  closed : Bool

namespace RoundingInterval

/-- The reals that round to `m · 2^q`: half a unit up, and half the distance to the number below. -/
def of (f : BinaryFormat) (m : Nat) (q : Int) : RoundingInterval :=
  let down := if m = 2 ^ f.fraction ∧ f.minExponent < q then 1 else 2
  let factor := 2 ^ (q - 2).toNat
  { low := (4 * m - down) * factor
    value := 4 * m * factor
    high := (4 * m + 2) * factor
    den := 2 ^ (2 - q).toNat
    closed := m % 2 = 0 }

/-- The interval in units of `10^p`. -/
def inUnits (i : RoundingInterval) (p : Int) : RoundingInterval :=
  let factor := 10 ^ (-p).toNat
  { low := i.low * factor
    value := i.value * factor
    high := i.high * factor
    den := i.den * 10 ^ p.toNat
    closed := i.closed }

/-- Whether a natural number lies in the interval. -/
def contains (i : RoundingInterval) (n : Nat) : Bool :=
  if i.closed then i.low ≤ n * i.den ∧ n * i.den ≤ i.high
  else i.low < n * i.den ∧ n * i.den < i.high

/-- The natural number of the interval that is nearest to its value, if there is one. -/
def nearest? (i : RoundingInterval) : Option Nat :=
  let below := i.value / i.den
  match i.contains below, i.contains (below + 1) with
  | true, true => some (if 2 * (i.value % i.den) < i.den then below else below + 1)
  | true, false => some below
  | false, true => some (below + 1)
  | false, false => none

end RoundingInterval

/-- The shortest decimal that rounds to `m · 2^q`; the nearest such if there are several.

The search starts above the decimal exponent of the number and goes on for more places than either
format needs to tell its numbers apart. -/
def Decimal.shortest (f : BinaryFormat) (m : Nat) (q : Int) : Decimal :=
  let interval := RoundingInterval.of f m q
  let start : Int := (Nat.log2 m + q + 1) * 30103 / 100000 + 1
  ((List.range 22).findSome? fun (k : Nat) =>
    let p := start - k
    (interval.inUnits p).nearest?.map (Decimal.mk · p)).getD ⟨0, 0⟩

end TreeScript
