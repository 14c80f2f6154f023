import TreeScript.Ast.Node
import TreeScript.Text.Units

/-!
# Values

A value is a primitive, a string, or a handle: the number of a piece of storage in the heap.  Two
handles of one kind are the same storage exactly when their numbers are equal, so equality of values
as Lean terms is "same kind, and same content or same storage".  This is also what tells map keys
apart: floats by their bits, containers by their storage.
-/

namespace TreeScript

/-- A value of a program. -/
inductive Value where
  | null
  | bool (b : Bool)
  | byte (n : Int8)
  | short (n : Int16)
  /-- One code unit of UTF-16. -/
  | char (unit : UInt16)
  | int (n : Int32)
  | long (n : Int64)
  | float (x : Binary32)
  | double (x : Binary64)
  | str (text : String)
  /-- The elements are in a sequence of the heap. -/
  | list (seq : Nat)
  | map (id : Nat)
  /-- The elements are in a sequence of the heap; its length never changes. -/
  | array (seq : Nat)
  | object (id : Nat)
  /-- Something that can be called. -/
  | callable (id : Nat)
  /-- A variable slot handed around. -/
  | ref (slot : Nat)
  | coroutine (id : Nat)
  deriving DecidableEq, Repr, Inhabited

namespace Value

/-- The value of a constant. -/
def ofLiteral : Literal → Value
  | .null => null
  | .bool b => bool b
  | .byte n => byte n
  | .short n => short n
  | .char c => char c
  | .int n => int n
  | .long n => long n
  | .float x => float x
  | .double x => double x
  | .str s => str s

/-- What a kind of values is called; every class is `object` and every callable `consumer`. -/
def kindName : Value → String
  | null => "null"
  | bool _ => "bool"
  | byte _ => "byte"
  | short _ => "short"
  | char _ => "char"
  | int _ => "int"
  | long _ => "long"
  | float _ => "float"
  | double _ => "double"
  | str _ => "string"
  | list _ => "list"
  | map _ => "map"
  | array _ => "array"
  | object _ => "object"
  | callable _ => "consumer"
  | ref _ => "ref"
  | coroutine _ => "coroutine"

/-- Whether this is the absent value. -/
def isNull : Value → Bool
  | null => true
  | _ => false

/-! ## Storage -/

/-- The storage of a handle. -/
def storage? : Value → Option Nat
  | list i | map i | array i | object i | callable i | ref i | coroutine i => some i
  | _ => none

/-- The number a program knows storage by: different storage has different numbers, far from small
ones. -/
def address? : Value → Option Nat
  | list i | array i => some (0x550000000000 + 16 * i)
  | map i => some (0x550000000000 + 16 * i + 1)
  | object i => some (0x550000000000 + 16 * i + 2)
  | callable i => some (0x550000000000 + 16 * i + 3)
  | ref i => some (0x550000000000 + 16 * i + 4)
  | coroutine i => some (0x550000000000 + 16 * i + 5)
  | _ => none

/-- Whether two values are handles of the same storage. -/
def sameStorage (v w : Value) : Bool := v.storage?.isSome && v == w

theorem sameStorage_iff {v w : Value} : v.sameStorage w ↔ v.storage?.isSome ∧ v = w := by
  simp [sameStorage]

end Value
end TreeScript
