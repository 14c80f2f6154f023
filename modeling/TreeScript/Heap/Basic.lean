import TreeScript.Coroutine
import TreeScript.Function.Catalog
import TreeScript.Value.OrderedMap

/-!
# The heap

All storage that values share lies in the heap: variable slots, scopes, sequences, maps, objects,
callables and coroutines.  Each is known by the number it got when it was made, and nothing is ever
taken away, so a number once handed out keeps its meaning.

A scope binds names to slots, and knows all the scopes around it, nearest first.  Looking a name up
goes through the scope and these in order; binding a name concerns the scope alone.
-/

namespace TreeScript

/-! ## What is stored -/

/-- A typed variable slot.  What is written to it must be of its type already. -/
structure Slot where
  type : TypeKind
  value : Value
  isMutable : Bool
  deriving DecidableEq, Repr, Inhabited

/-- The names bound in a scope, and the scopes around it, nearest first. -/
structure Scope where
  bindings : Table String Nat
  ancestors : List Nat
  deriving Inhabited

/-- An instance of a class; its fields are bound in a scope of their own. -/
structure Instance where
  cls : ClassDef
  fields : Nat
  deriving Inhabited

/-- Something that can be called with arguments. -/
inductive Callable where
  /-- A function as a value. -/
  | function (f : Function)
  /-- Parameters and a body, which runs in a child of the scope in which it was written. -/
  | lambda (params : List Param) (body : Node) (scope : Nat)
  /-- An argument that was handed over unevaluated, with the scope in which it stands. -/
  | deferred (expr : Node) (scope : Nat)

instance : Inhabited Callable := ⟨.deferred default 0⟩

/-- The storage that values share. -/
structure Heap where
  slots : Array Slot
  scopes : Array Scope
  sequences : Array (Array Value)
  maps : Array OrderedMap
  objects : Array Instance
  callables : Array Callable
  coroutines : Array Coroutine

namespace Heap

/-- The heap in which nothing has been stored. -/
def empty : Heap := ⟨#[], #[], #[], #[], #[], #[], #[]⟩

/-! ## Slots -/

/-- The slot of a number. -/
def slot (h : Heap) (i : Nat) : Slot := h.slots.getD i default

/-- The value in a slot. -/
def valueAt (h : Heap) (i : Nat) : Value := (h.slot i).value

/-- Make a slot. -/
def newSlot (h : Heap) (s : Slot) : Nat × Heap :=
  (h.slots.size, { h with slots := h.slots.push s })

/-- Put a value into a slot. -/
def setValue (h : Heap) (i : Nat) (v : Value) : Heap :=
  { h with slots := h.slots.modify i fun s => { s with value := v } }

/-- Write to a slot; an immutable one refuses. -/
def assign? (h : Heap) (i : Nat) (v : Value) : Option Heap :=
  if (h.slot i).isMutable then some (h.setValue i v) else none

/-! ## Scopes -/

/-- The scope of a number. -/
def scope (h : Heap) (c : Nat) : Scope := h.scopes.getD c default

/-- Make a scope with no scope around it. -/
def newRoot (h : Heap) : Nat × Heap :=
  (h.scopes.size, { h with scopes := h.scopes.push ⟨.empty, []⟩ })

/-- Make a scope inside another. -/
def newScope (h : Heap) (parent : Nat) : Nat × Heap :=
  let around := parent :: (h.scope parent).ancestors
  (h.scopes.size, { h with scopes := h.scopes.push ⟨.empty, around⟩ })

/-- A scope and the scopes around it, nearest first. -/
def chain (h : Heap) (c : Nat) : List Nat := c :: (h.scope c).ancestors

/-- Whether a scope has no scope around it. -/
def isRoot (h : Heap) (c : Nat) : Bool := (h.scope c).ancestors.isEmpty

/-- Bind a name in a scope to a slot, in place of any earlier binding of that name there. -/
def bind (h : Heap) (c : Nat) (name : String) (i : Nat) : Heap :=
  { h with scopes := h.scopes.modify c fun s => { s with bindings := s.bindings.insert name i } }

/-- Bind a name in a scope to a new slot. -/
def declareSlot (h : Heap) (c : Nat) (name : String) (s : Slot) : Heap :=
  let (i, h) := h.newSlot s
  h.bind c name i

/-- Bind a name in a scope to a new mutable slot. -/
def declare (h : Heap) (c : Nat) (name : String) (ty : TypeKind) (v : Value) : Heap :=
  h.declareSlot c name ⟨ty, v, true⟩

/-- The slot that a name is bound to in a scope itself. -/
def lookupLocal (h : Heap) (c : Nat) (name : String) : Option Nat :=
  (h.scope c).bindings.find? name

/-- The slot that a name is bound to in a scope or the nearest scope around it. -/
def lookup (h : Heap) (c : Nat) (name : String) : Option Nat :=
  (h.chain c).findSome? fun a => h.lookupLocal a name

/-- The value of a variable; null if it is not there. -/
def read (h : Heap) (c : Nat) (name : String) : Value :=
  ((h.lookup c name).map h.valueAt).getD .null

/-- Unbind a name in the nearest scope that binds it; gives the slot it was bound to. -/
def unbind (h : Heap) (c : Nat) (name : String) : Option Nat × Heap :=
  match (h.chain c).find? fun a => (h.lookupLocal a name).isSome with
  | some a =>
    (h.lookupLocal a name,
      { h with scopes := h.scopes.modify a fun s => { s with bindings := s.bindings.erase name } })
  | none => (none, h)

/-- Unbind all names of a scope. -/
def clear (h : Heap) (c : Nat) : Heap :=
  { h with scopes := h.scopes.modify c fun s => { s with bindings := .empty } }

/-- The names bound in a scope and their slots, in the order of the names. -/
def sortedBindings (h : Heap) (c : Nat) : List (String × Slot) :=
  ((h.scope c).bindings.entries.mergeSort fun a b => a.1 ≤ b.1).map fun (n, i) => (n, h.slot i)

/-- The text of a scope in a diagnostic. -/
def scopeDebug (h : Heap) (c : Nat) : String :=
  "Context \x7b vars: " ++ toString (h.scope c).bindings.size ++ ", root: " ++
    toString (h.isRoot c) ++ " \x7d"

/-! ## Containers -/

/-- The elements of a sequence. -/
def sequence (h : Heap) (i : Nat) : Array Value := h.sequences.getD i #[]

/-- Make a sequence. -/
def newSequence (h : Heap) (items : Array Value) : Nat × Heap :=
  (h.sequences.size, { h with sequences := h.sequences.push items })

/-- Make a list of elements. -/
def newList (h : Heap) (items : List Value) : Value × Heap :=
  let (i, h) := h.newSequence items.toArray
  (.list i, h)

/-- Replace the element of a sequence at a place that it has. -/
def setElement (h : Heap) (i place : Nat) (v : Value) : Heap :=
  { h with sequences := h.sequences.modify i fun items => items.setIfInBounds place v }

/-- The entries of a map. -/
def mapAt (h : Heap) (i : Nat) : OrderedMap := h.maps.getD i .empty

/-- Make a map. -/
def newMap (h : Heap) (m : OrderedMap) : Value × Heap :=
  (.map h.maps.size, { h with maps := h.maps.push m })

/-- Give a key of a map a value. -/
def setEntry (h : Heap) (i : Nat) (k v : Value) : Heap :=
  { h with maps := h.maps.modify i fun m => m.insert k v }

/-! ## Objects, callables and coroutines -/

/-- The instance of a number. -/
def object (h : Heap) (i : Nat) : Instance := h.objects.getD i default

/-- Make an instance without fields, inside a scope. -/
def newObject (h : Heap) (cls : ClassDef) (around : Nat) : Nat × Heap :=
  let (fields, h) := h.newScope around
  (h.objects.size, { h with objects := h.objects.push ⟨cls, fields⟩ })

/-- The class of an instance. -/
def classOf (h : Heap) (i : Nat) : ClassDef := (h.object i).cls

/-- The callable of a number. -/
def callable (h : Heap) (i : Nat) : Callable := h.callables.getD i default

/-- Make a callable. -/
def newCallable (h : Heap) (c : Callable) : Value × Heap :=
  (.callable h.callables.size, { h with callables := h.callables.push c })

/-- The coroutine of a number. -/
def coroutine (h : Heap) (i : Nat) : Coroutine := h.coroutines.getD i default

/-- Replace a coroutine. -/
def setCoroutine (h : Heap) (i : Nat) (c : Coroutine) : Heap :=
  { h with coroutines := h.coroutines.setIfInBounds i c }

/-- Declare parameters in a scope, one after the other. -/
def declareAll (h : Heap) (c : Nat) (params : List Param) (args : List Value) : Heap :=
  (params.zip args).foldl (fun h (p, v) => h.declare c p.name p.type v) h

/-- Make a coroutine that has not run, with its arguments bound in a new scope inside `origin`. -/
def newCoroutine (h : Heap) (name : String) (params : List Param) (body : Node)
    (args : List Value) (origin : Nat) : Nat × Heap :=
  let (scope, h) := h.newScope origin
  let h := h.declareAll scope params args
  let c : Coroutine := ⟨name, params, args, body, origin, scope, .created, []⟩
  (h.coroutines.size, { h with coroutines := h.coroutines.push c })

/-- Make a coroutine that starts a given one from the beginning. -/
def restart (h : Heap) (i : Nat) : Nat × Heap :=
  let c := h.coroutine i
  h.newCoroutine c.name c.params c.body c.args c.origin

/-! ## Names of types -/

/-- The name of a value's class, or of its kind. -/
def typeName (h : Heap) : Value → String
  | .object i => (h.classOf i).name
  | v => v.kindName

/-- Whether a value is an instance of the class of a name. -/
def isInstance (h : Heap) (cls : String) : Value → Bool
  | .object i => decide (i < h.objects.size) && (h.classOf i).extendsName cls
  | _ => false

end Heap
end TreeScript
