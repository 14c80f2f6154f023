import TreeScript.Operation.Promotion

/-!
# Arithmetic on promoted operands

Integers of a type wrap around: the result of an operation is the exact result with its high bits
dropped.  Quotients are truncated toward zero and remainders have the sign of the dividend.  Shifts
take the count modulo the width, and a shift to the right keeps the sign.  Powers are computed in
doubles and kept within the range of the type.
-/

namespace TreeScript

/-! ## Integers -/

namespace Integer

/-- The number of a type whose bits are the bits of `a` and `b` combined. -/
def bits (ty : TypeKind) (f : BitVec (Heap.width ty) → BitVec (Heap.width ty) → BitVec (Heap.width ty))
    (a b : Int) : Int :=
  (f (BitVec.ofInt (Heap.width ty) a) (BitVec.ofInt (Heap.width ty) b)).toInt

/-- `a` to the power `b`, kept within the range of a type. -/
def power (ty : TypeKind) (a b : Int) : Int :=
  let (lo, hi) := Heap.intRange ty
  ((Binary64.ofInt a).pow (Binary64.ofInt b)).truncate lo hi

/-- How far a count shifts numbers of a type. -/
def shiftCount (ty : TypeKind) (b : Int) : Nat := (b % Heap.width ty).toNat

/-- Apply an operator to two numbers of an integral type. -/
def binary (ty : TypeKind) (op : BinaryOp) (a b : Int) : Except EvalError Value :=
  let number (n : Int) : Except EvalError Value := .ok (Heap.ofInteger ty n)
  let truth (b : Bool) : Except EvalError Value := .ok (.bool b)
  match op with
  | .add => number (a + b)
  | .sub => number (a - b)
  | .mul => number (a * b)
  | .div => if b = 0 then .error (.of .divisionByZero) else number (a.tdiv b)
  | .mod => if b = 0 then .error (.of .moduloByZero) else number (a.tmod b)
  | .pow => number (power ty a b)
  | .bitAnd => number (bits ty (· &&& ·) a b)
  | .bitOr => number (bits ty (· ||| ·) a b)
  | .bitXor => number (bits ty (· ^^^ ·) a b)
  | .shl => number (a * 2 ^ shiftCount ty b)
  | .shr => number (a / 2 ^ shiftCount ty b)
  | .and => truth (a ≠ 0 ∧ b ≠ 0)
  | .or => truth (a ≠ 0 ∨ b ≠ 0)
  | .eq | .strictEq => truth (a = b)
  | .notEq => truth (a ≠ b)
  | .lt => truth (a < b)
  | .gt => truth (a > b)
  | .ltEq => truth (a ≤ b)
  | .gtEq => truth (a ≥ b)

end Integer

/-! ## Floats -/

/-- The arithmetic of a format of floats. -/
structure FloatArithmetic (α : Type) where
  kind : String
  value : α → Value
  add : α → α → α
  sub : α → α → α
  mul : α → α → α
  div : α → α → α
  mod : α → α → α
  pow : α → α → α
  equal : α → α → Bool
  less : α → α → Bool
  lessEqual : α → α → Bool
  isZero : α → Bool

namespace FloatArithmetic

/-- The arithmetic of doubles. -/
def double : FloatArithmetic Binary64 where
  kind := "double"
  value := .double
  add := (· + ·)
  sub := (· - ·)
  mul := (· * ·)
  div := (· / ·)
  mod := (· % ·)
  pow := Binary64.pow
  equal := Binary64.equal
  less := Binary64.less
  lessEqual := Binary64.lessEqual
  isZero := Binary64.isZero

/-- The arithmetic of floats. -/
def single : FloatArithmetic Binary32 where
  kind := "float"
  value := .float
  add := (· + ·)
  sub := (· - ·)
  mul := (· * ·)
  div := (· / ·)
  mod := (· % ·)
  pow := Binary32.pow
  equal := Binary32.equal
  less := Binary32.less
  lessEqual := Binary32.lessEqual
  isZero := Binary32.isZero

/-- Apply an operator to two floats; they have no bits to work on. -/
def binary {α : Type} (f : FloatArithmetic α) (op : BinaryOp) (x y : α) : Except EvalError Value :=
  let number (x : α) : Except EvalError Value := .ok (f.value x)
  let truth (b : Bool) : Except EvalError Value := .ok (.bool b)
  match op with
  | .add => number (f.add x y)
  | .sub => number (f.sub x y)
  | .mul => number (f.mul x y)
  | .div => number (f.div x y)
  | .mod => number (f.mod x y)
  | .pow => number (f.pow x y)
  | .eq | .strictEq => truth (f.equal x y)
  | .notEq => truth (!f.equal x y)
  | .lt => truth (f.less x y)
  | .gt => truth (f.less y x)
  | .ltEq => truth (f.lessEqual x y)
  | .gtEq => truth (f.lessEqual y x)
  | .and => truth (!f.isZero x && !f.isZero y)
  | .or => truth (!f.isZero x || !f.isZero y)
  | .bitAnd | .bitOr | .bitXor | .shl | .shr =>
    .error (.of (.invalidBinaryOp f.kind f.kind op))

end FloatArithmetic

/-- Apply an operator to two operands of one type. -/
def Operands.binary (op : BinaryOp) : Operands → Except EvalError Value
  | .doubles x y => FloatArithmetic.double.binary op x y
  | .floats x y => FloatArithmetic.single.binary op x y
  | .integers ty a b => Integer.binary ty op a b

end TreeScript
