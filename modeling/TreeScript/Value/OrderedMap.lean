import TreeScript.Table
import TreeScript.Value

/-!
# Ordered maps

A map value keeps its entries in the order of first insertion.  A key keeps its place when its value
is replaced; when a key is taken out, the last entry moves into its place.  Beside the entries the map
has an index from keys to places, so that a key is found without going through the entries.
-/

namespace TreeScript

/-! ## Keys -/

/-- What tells the keys of a map apart: values of different kinds are different keys, floats are keys
by their bits, and what is shared by its storage. -/
inductive MapKey where
  | null
  | bool (b : Bool)
  | byte (n : Int8)
  | short (n : Int16)
  | char (unit : UInt16)
  | int (n : Int32)
  | long (n : Int64)
  | float (bits : UInt32)
  | double (bits : UInt64)
  | str (text : String)
  /-- Storage of a kind of values, by its number. -/
  | identity (kind : String) (address : Nat)
  deriving DecidableEq, Repr, Inhabited

/-- The key that a value is. -/
def MapKey.of : Value → MapKey
  | .null => null
  | .bool b => bool b
  | .byte n => byte n
  | .short n => short n
  | .char c => char c
  | .int n => int n
  | .long n => long n
  | .float x => float x.bits
  | .double x => double x.bits
  | .str s => str s
  | v => identity v.kindName (v.address?.getD 0)

/-! ## Maps -/

/-- Entries in order, and the place of each key. -/
structure OrderedMap where
  index : Table MapKey Nat
  entries : List (Value × Value)
  deriving Inhabited

namespace OrderedMap

/-- The map without entries. -/
def empty : OrderedMap := ⟨.empty, []⟩

/-- How many entries there are. -/
def size (m : OrderedMap) : Nat := m.entries.length

/-- Whether there are no entries. -/
def isEmpty (m : OrderedMap) : Bool := m.entries.isEmpty

/-- The keys in order. -/
def keys (m : OrderedMap) : List Value := m.entries.map (·.1)

/-- The values in order of their keys. -/
def values (m : OrderedMap) : List Value := m.entries.map (·.2)

/-- The place of a key. -/
def position? (m : OrderedMap) (k : Value) : Option Nat := m.index.find? (.of k)

/-- The place of a key, with the entry there. -/
def entry? (m : OrderedMap) (k : Value) : Option (Nat × Value × Value) := do
  let i ← m.position? k
  return (i, ← m.entries[i]?)

/-- The value of a key. -/
def find? (m : OrderedMap) (k : Value) : Option Value := (m.entry? k).map (·.2.2)

/-- Whether a key is there. -/
def contains (m : OrderedMap) (k : Value) : Bool := m.index.contains (.of k)

/-- Give a key a value, at its place if it is there, else at the end; gives the value it had. -/
def exchange (m : OrderedMap) (k v : Value) : Option Value × OrderedMap :=
  match m.entry? k with
  | some (i, k, old) => (some old, { m with entries := m.entries.set i (k, v) })
  | none => (none, ⟨m.index.insert (.of k) m.entries.length, m.entries ++ [(k, v)]⟩)

/-- Give a key a value: at its place if it is there, else at the end. -/
def insert (m : OrderedMap) (k v : Value) : OrderedMap := (m.exchange k v).2

/-- The entries without the one at place `i`, into which the last one moves. -/
def eraseAt (entries : List (Value × Value)) (i : Nat) : List (Value × Value) :=
  match entries.getLast? with
  | some last => if i + 1 = entries.length then entries.dropLast else entries.dropLast.set i last
  | none => []

/-- An index in which the key of the entry at place `i` has that place. -/
def reindex (index : Table MapKey Nat) (entries : List (Value × Value)) (i : Nat) :
    Table MapKey Nat :=
  match entries[i]? with
  | some (k, _) => index.insert (.of k) i
  | none => index

/-- Take a key out; gives the value it had. -/
def remove (m : OrderedMap) (k : Value) : Option Value × OrderedMap :=
  match m.position? k with
  | none => (none, m)
  | some i =>
    let index := m.index.erase (.of k)
    match m.entries[i]? with
    | none => (none, { m with index := index })
    | some (_, removed) =>
      let entries := eraseAt m.entries i
      (some removed, ⟨reindex index entries i, entries⟩)

/-- Take a key out. -/
def erase (m : OrderedMap) (k : Value) : OrderedMap := (m.remove k).2

/-- The map that results from inserting entries one after the other. -/
def ofList (entries : List (Value × Value)) : OrderedMap :=
  entries.foldl (fun m (k, v) => m.insert k v) empty

end OrderedMap
end TreeScript
