import TreeScript.Heap.Rendering
import TreeScript.Text.Blank
import TreeScript.Number.Reader

/-!
# Conversions that run no code of the program

Truthiness, default values, conversion to a declared type and shallow copies.  Integers convert to
narrower ones by dropping high bits; floats convert to integers by dropping the fraction and staying
within the range; strings convert to numbers by being read.  Null converts to every type as null.
Objects convert only to object types, to `bool` and `string` by rules that ask no class, and to
untyped slots.
-/

namespace TreeScript

namespace Heap

/-! ## Truth and defaults -/

/-- Whether a value counts as true; what an object counts as is for its class to say. -/
def truthy? (h : Heap) : Value → Option Bool
  | .null => some false
  | .bool b => some b
  | .byte n => some (n != 0)
  | .short n => some (n != 0)
  | .char c => some (c != 0)
  | .int n => some (n != 0)
  | .long n => some (n != 0)
  | .float x => some (!x.isZero)
  | .double x => some (!x.isZero)
  | .str s => some (s != "")
  | .list i | .array i => some (!(h.sequence i).isEmpty)
  | .map i => some (!(h.mapAt i).isEmpty)
  | .coroutine i => some (!(h.coroutine i).isFinished)
  | .callable _ | .ref _ => some true
  | .object _ => none

/-- Whether a value counts as true, where every object does. -/
def truthy (h : Heap) (v : Value) : Bool := (h.truthy? v).getD true

/-- What a slot of a type starts with. -/
def defaultValue (h : Heap) : TypeKind → Value × Heap
  | .bool => (.bool false, h)
  | .byte => (.byte 0, h)
  | .short => (.short 0, h)
  | .char => (.char 0, h)
  | .int => (.int 0, h)
  | .long => (.long 0, h)
  | .float => (.float ⟨0⟩, h)
  | .double => (.double ⟨0⟩, h)
  | .string => (.str "", h)
  | .list => h.newList []
  | .map => h.newMap .empty
  | .array => let (i, h) := h.newSequence #[]; (.array i, h)
  | .ref => let (i, h) := h.newSlot ⟨.any, .null, true⟩; (.ref i, h)
  | .any | .void | .consumer | .coroutine | .object _ => (.null, h)

/-! ## Numbers -/

/-- How many bits the numbers of an integral type have. -/
def width : TypeKind → Nat
  | .byte => 8
  | .short | .char => 16
  | .int => 32
  | _ => 64

/-- The numbers of an integral type, from the least to the greatest. -/
def intRange : TypeKind → Int × Int
  | .char => (0, 2 ^ width .char - 1)
  | ty => (-2 ^ (width ty - 1), 2 ^ (width ty - 1) - 1)

/-- The number of an integral type that an integer becomes when its high bits are dropped. -/
def wrap (ty : TypeKind) (n : Int) : Int :=
  match ty with
  | .char => n % 2 ^ width .char
  | ty => Int.bmod n (2 ^ width ty)

/-- The value of an integral type for a number, whose high bits are dropped. -/
def ofInteger (ty : TypeKind) (n : Int) : Value :=
  match ty with
  | .byte => .byte (Int8.ofInt n)
  | .short => .short (Int16.ofInt n)
  | .char => .char (n % 2 ^ width .char).toNat.toUInt16
  | .int => .int (Int32.ofInt n)
  | _ => .long (Int64.ofInt n)

/-- The integer that an integral value is; a truth value is one or zero. -/
def integer? : Value → Option Int
  | .bool b => some (if b then 1 else 0)
  | .byte n => some n.toInt
  | .short n => some n.toInt
  | .char c => some c.toNat
  | .int n => some n.toInt
  | .long n => some n.toInt
  | _ => none

/-- The failure to convert a value of a kind. -/
def castFailure (source target : String) : EvalError := .of (.invalidCast source target)

/-- The failure to read a text as a number. -/
def readFailure (s target : String) : EvalError :=
  (castFailure "string" target).withNote ("cannot parse " ++ Quoted.shown s)

/-- The number of an integral type that a value converts to.  As a char, a text gives its first unit,
a truth value the letter `t` or `f`, and a float goes through `int`. -/
def integerOf (ty : TypeKind) (v : Value) : Except EvalError Int :=
  let isChar := ty == .char
  let (lo, hi) := if isChar then intRange .int else intRange ty
  let fit (n : Int) : Int := if isChar then n % 2 ^ width .char else n
  match v with
  | .str s =>
    if isChar then
      match Units.ofString s with
      | unit :: _ => .ok unit.toNat
      | [] => .error ((castFailure "string" "char").withNote "string is empty")
    else
      match Reader.int? (Blank.trim s.toList) with
      | some n => if lo ≤ n ∧ n ≤ hi then .ok n else .error (readFailure s ty.text)
      | none => .error (readFailure s ty.text)
  | .bool b =>
    if isChar then .ok (if b then 't' else 'f').toNat else .ok (if b then 1 else 0)
  | .float x => .ok (fit (x.truncate lo hi))
  | .double x => .ok (fit (x.truncate lo hi))
  | v =>
    match integer? v with
    | some n => .ok (wrap ty n)
    | none => .error (castFailure v.kindName ty.text)

/-- The `float` that a value converts to. -/
def singleOf : Value → Except EvalError Binary32
  | .str s =>
    match Reader.float? .single (Blank.trim s.toList) with
    | some bits => .ok (.ofNatBits bits)
    | none => .error (readFailure s "float")
  | .float x => .ok x
  | .double x => .ok x.narrow
  | v =>
    match integer? v with
    | some n => .ok (.ofInt n)
    | none => .error (castFailure v.kindName "float")

/-- The `double` that a value converts to. -/
def doubleOf : Value → Except EvalError Binary64
  | .str s =>
    match Reader.float? .double (Blank.trim s.toList) with
    | some bits => .ok (.ofNatBits bits)
    | none => .error (readFailure s "double")
  | .float x => .ok x.widen
  | .double x => .ok x
  | v =>
    match integer? v with
    | some n => .ok (.ofInt n)
    | none => .error (castFailure v.kindName "double")

/-- The number of a number type that a value converts to. -/
def toNumber (v : Value) : TypeKind → Except EvalError Value
  | .float => (singleOf v).map .float
  | .double => (doubleOf v).map .double
  | ty => (integerOf ty v).map (ofInteger ty)

/-! ## All types -/

/-- Convert to a declared type.  Lists and arrays convert to each other by copying. -/
def cast (h : Heap) (v : Value) (ty : TypeKind) : Checked (Value × Heap) :=
  let keep (ok : Bool) : Checked (Value × Heap) :=
    if ok then .ok (v, h) else .error (.error (castFailure v.kindName ty.text))
  if v.isNull then .ok (v, h) else
  match ty with
  | .any | .void => .ok (v, h)
  | .byte | .short | .char | .int | .long | .float | .double =>
    match toNumber v ty with
    | .ok w => .ok (w, h)
    | .error e => .error (.error e)
  | .bool => .ok (.bool (h.truthy v), h)
  | .string =>
    match v with
    | .str _ => .ok (v, h)
    | _ => do return (.str (← h.render v), h)
  | .list =>
    match v with
    | .array i => let (j, h) := h.newSequence (h.sequence i); .ok (.list j, h)
    | .list _ => .ok (v, h)
    | _ => keep false
  | .array =>
    match v with
    | .list i => let (j, h) := h.newSequence (h.sequence i); .ok (.array j, h)
    | .array _ => .ok (v, h)
    | _ => keep false
  | .map => keep (v matches .map _)
  | .coroutine => keep (v matches .coroutine _)
  | .consumer => keep (v matches .callable _)
  | .object _ => keep (v matches .object _)
  | .ref =>
    match v with
    | .ref _ => .ok (v, h)
    | _ => let (i, h) := h.newSlot ⟨.any, v, true⟩; .ok (.ref i, h)

/-- A copy that shares the elements: new storage for containers, a coroutine from its beginning.
How an object is copied is for its class to say. -/
def shallowCopy? (h : Heap) : Value → Option (Value × Heap)
  | .list i => let (j, h) := h.newSequence (h.sequence i); some (.list j, h)
  | .array i => let (j, h) := h.newSequence (h.sequence i); some (.array j, h)
  | .map i => some (h.newMap (h.mapAt i))
  | .coroutine i => let (j, h) := h.restart i; some (.coroutine j, h)
  | .object _ => none
  | v => some (v, h)

end Heap
end TreeScript
