import TreeScript.Heap.Conversion

/-!
# Promotion

The kinds that take part in arithmetic form a ladder, most general first: double, float, long, int,
char, short, byte, bool.  Two operands are converted to the more general of their two kinds; two
truth values are counted as ints.  A string takes the kind of the other operand and is read as a
number of it; two strings have no kind in common.
-/

namespace TreeScript

/-- A rung of the ladder. -/
inductive Rank where
  | double | float | long | int | char | short | byte | bool
  deriving DecidableEq, Repr, Inhabited

namespace Rank

/-- The rung of a value. -/
def of? : Value → Option Rank
  | .double _ => some double
  | .float _ => some float
  | .long _ => some long
  | .int _ => some int
  | .char _ => some char
  | .short _ => some short
  | .byte _ => some byte
  | .bool _ => some bool
  | _ => none

/-- How far down the ladder a rung is. -/
def depth : Rank → Nat
  | double => 0
  | float => 1
  | long => 2
  | int => 3
  | char => 4
  | short => 5
  | byte => 6
  | bool => 7

/-- The more general of two rungs. -/
def general (a b : Rank) : Rank := if a.depth ≤ b.depth then a else b

/-- The type that operands of a rung are computed in. -/
def type : Rank → TypeKind
  | double => .double
  | float => .float
  | long => .long
  | int | bool => .int
  | char => .char
  | short => .short
  | byte => .byte

/-- The name of a rung in a diagnostic. -/
def debugText : Rank → String
  | double => "Double"
  | float => "Float"
  | long => "Long"
  | int => "Int"
  | char => "Char"
  | short => "Short"
  | byte => "Byte"
  | bool => "Bool"

end Rank

/-- The rung that two operands are converted to. -/
def promote? (l r : Value) : Option Rank :=
  match Rank.of? l, Rank.of? r with
  | some a, some b => some (a.general b)
  | some a, none => if r matches .str _ then some a else none
  | none, some b => if l matches .str _ then some b else none
  | none, none => none

/-- Two operands of one type. -/
inductive Operands where
  | doubles (x y : Binary64)
  | floats (x y : Binary32)
  /-- Two numbers of an integral type. -/
  | integers (ty : TypeKind) (a b : Int)

namespace Heap

/-- Two operands converted to a rung. -/
def operands (h : Heap) (rank : Rank) (l r : Value) : Except EvalError Operands :=
  match rank with
  | .double => return .doubles (← doubleOf l) (← doubleOf r)
  | .float => return .floats (← singleOf l) (← singleOf r)
  | .bool =>
    let bit (v : Value) : Int := if h.truthy v then 1 else 0
    .ok (.integers .int (bit l) (bit r))
  | rank => return .integers rank.type (← integerOf rank.type l) (← integerOf rank.type r)

end Heap
end TreeScript
