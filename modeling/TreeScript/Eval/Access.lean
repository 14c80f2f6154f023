import TreeScript.Eval.Hooks

/-!
# Variables, fields and elements

Values are converted to the type of the slot they are written to.  Elements are found by following
keys one after the other from a container; an object on the way receives the rest of the keys by a
method of its class (`collection.get`, `collection.set`).  Places of lists and arrays count from zero,
negative ones from the end.
-/

namespace TreeScript

/-! ## Places -/

/-- The place in a sequence of a length that a key means. -/
def placeOf (h : Heap) (key : Value) (length : Nat) : Except EvalError Nat := do
  if key.isNull then throw (.of (.typeMismatch "int" (h.typeName key)))
  let raw ← Heap.integerOf .long key
  let place := if raw < 0 then raw + length else raw
  if place < 0 ∨ length ≤ place then throw (.of (.indexOutOfBounds raw length))
  return place.toNat

namespace Exec

/-! ## Variables -/

/-- Evaluate a declaration. -/
def evalDeclare (ty : TypeKind) (name : String) (value : Option Node) (scope : Nat) : Exec Value := do
  let v ←
    match value with
    | some e => coerce (← eval e scope) ty
    | none => make fun h => h.defaultValue ty
  modifyHeap fun h => h.declare scope name ty v
  return v

/-- Write a value to the slot of a name, converted to the slot's type. -/
def store (slot : Nat) (name : String) (v : Value) : Exec Value := do
  let v ← coerce v (← heap fun h => (h.slot slot).type)
  if ← heap fun h => (h.slot slot).isMutable then
    modifyHeap fun h => h.setValue slot v
    return v
  else fail (.immutableBinding name)

/-- Evaluate an assignment. -/
def evalAssign (name : String) (value : Node) (scope : Nat) : Exec Value := do
  let v ← eval value scope
  match ← heap fun h => h.lookup scope name with
  | some slot => store slot name v
  | none => fail (.undefinedVariable name)

/-- Evaluate the declaration of a constant object. -/
def evalConstObject (cls name : String) (value : Node) (scope : Nat) : Exec Value := do
  let v ← checkInstance (← eval value scope) cls
  modifyHeap fun h => h.declareSlot scope name ⟨.object cls, v, false⟩
  return v

/-! ## Fields -/

/-- The slot of a field of a value. -/
def fieldSlot (v : Value) (name : String) : Exec Nat := do
  match v with
  | .object i =>
    match ← heap fun h => h.lookupLocal (h.object i).fields name with
    | some slot => return slot
    | none => fail (.undefinedField name (← heap fun h => h.typeName v))
  | v => fail (.undefinedField name (← heap fun h => h.typeName v))

/-- Evaluate a field. -/
def evalField (target : Node) (name : String) (scope : Nat) : Exec Value := do
  let slot ← fieldSlot (← eval target scope) name
  heap fun h => h.valueAt slot

/-- Evaluate an assignment to a field, which is found before the value is evaluated. -/
def evalFieldAssign (target : Node) (name : String) (value : Node) (scope : Nat) : Exec Value := do
  let slot ← fieldSlot (← eval target scope) name
  store slot name (← eval value scope)

/-! ## Elements -/

/-- The element of a container for a key.  A key that a map does not have reads as null if `lenient`;
a string has elements only as the first container of a single key (`single`). -/
def element (h : Heap) (container key : Value) (lenient single : Bool) : Checked Value :=
  let other : Checked Value :=
    .fail (.typeMismatch "list, array, map or string" (h.typeName container))
  match container with
  | .list i | .array i =>
    let items := h.sequence i
    Heap.checked do return items.getD (← placeOf h key items.size) .null
  | .map i =>
    match (h.mapAt i).find? key with
    | some v => .ok v
    | none => if lenient then .ok .null else do .fail (.keyNotFound (← h.render key))
  | .str s =>
    if single then
      let units := Units.ofString s
      Heap.checked do return .char (units.getD (← placeOf h key units.length) 0)
    else other
  | _ => other

/-- Follow keys from a value.  Only the last key may be missing from a map, and only if `lenient`. -/
def walk (lenient single : Bool) : Value → List Value → Exec Value
  | v, [] => pure v
  | .object i, keys => do callNamedMethod i "collection.get" [← newList keys]
  | v, key :: rest => do
    let w ← ofChecked (← heap fun h => element h v key (rest.isEmpty && lenient) single)
    walk lenient single w rest

/-- The element for some keys. -/
def indexGet (v : Value) (keys : List Value) : Exec Value := walk true (keys.length == 1) v keys

/-- Whether a container is being rendered. -/
def isHeld (container : Value) : Exec Bool := gets fun s => s.held.contains container

/-- Write an element of a container. -/
def setElement (container key v : Value) : Exec Value := do
  match container with
  | .list i | .array i =>
    let place ← ofExcept (← heap fun h => placeOf h key (h.sequence i).size)
    if ← isHeld container then halt .heldContainer
    else
      modifyHeap fun h => h.setElement i place v
      return v
  | .map i =>
    if ← isHeld container then halt .heldContainer
    else
      modifyHeap fun h => h.setEntry i key v
      return v
  | .object i => do callNamedMethod i "collection.set" [← newList [key], v]
  | other => fail (.typeMismatch "list, array or map" (← heap fun h => h.typeName other))

/-- Write the element for some keys; gives the value written. -/
def indexSet (v : Value) (keys : List Value) (new : Value) : Exec Value := do
  match v with
  | .object i => do callNamedMethod i "collection.set" [← newList keys, new]
  | v =>
    match keys.getLast? with
    | none => fail (.custom "index assignment needs at least one index")
    | some last =>
      let path := keys.dropLast
      let container ← walk false (path.length == 1) v path
      setElement container last new

end Exec
end TreeScript
