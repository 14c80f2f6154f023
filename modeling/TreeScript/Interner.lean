import TreeScript.Table

/-!
# Interned names

An interner numbers strings in the order in which they are first seen.  Number 0 is the empty
string, and a list of well-known words follows it, so that these have the same numbers everywhere.
Strings are kept in the order of their numbers, and beside them an index from strings to numbers, so that
a string is found without going through the others.

Several callers may share an interner.  One that has not found its string asks to write, and by then
another may have entered the same string: it is looked for once more before it gets a number.
-/

namespace TreeScript

/-- The strings with a number, in order, and the number of each. -/
structure Interner where
  numbers : Table String Nat
  strings : Array String

namespace Interner

/-- How many numbers there are. -/
def capacity : Nat := UInt32.size

/-- No number is left for another string. -/
structure Overflow where
  /-- How many strings have a number. -/
  count : Nat
  deriving DecidableEq, Repr

/-- The wording. -/
def Overflow.message (e : Overflow) : String :=
  "interner exceeded capacity: " ++ toString e.count ++ " strings, max is " ++ toString (capacity - 1)

/-- The number of the empty string. -/
def emptyName : Nat := 0

/-- The words every interner starts with, after the empty string. -/
def wellKnown : List String :=
  ["this", "exception", "message", "getMessage", "cast", "clone", "collection.get",
    "collection.set", "+", "-", "*", "/", "%", "^", "==", "!=", "===", "<", ">", "<=", ">=",
    "&&", "||", "!", "&", "|", "^^", "~", "<<", ">>"]

/-- How many strings have a number. -/
def size (t : Interner) : Nat := t.strings.size

/-- The number of a string that has one. -/
def get? (t : Interner) (s : String) : Option Nat := t.numbers.find? s

/-- The string with a number; the empty string for a number that no string has. -/
def lookup (t : Interner) (n : Nat) : String := t.strings.getD n ""

/-- Give a string the next number. -/
def push (t : Interner) (s : String) : Interner := ⟨t.numbers.insert s t.size, t.strings.push s⟩

/-- Enter a string, which gets the next number if it has none and one is left. -/
def enter (t : Interner) (s : String) : Except Overflow Nat × Interner :=
  match t.get? s with
  | some n => (.ok n, t)
  | none => if t.size < capacity then (.ok t.size, t.push s) else (.error ⟨t.size⟩, t)

/-- Answer with the number that a string had when it was looked for; enter it if it had none. -/
def settle (t : Interner) (found? : Option Nat) (s : String) : Except Overflow Nat × Interner :=
  match found? with
  | some n => (.ok n, t)
  | none => t.enter s

/-- The number of a string, which is entered if it has none. -/
def tryIntern (t : Interner) (s : String) : Except Overflow Nat × Interner := t.settle (t.get? s) s

/-- The number of a string, which gets the next one if it has none; the number of the empty string if
none is left. -/
def intern (t : Interner) (s : String) : Nat × Interner :=
  match t.tryIntern s with
  | (.ok n, t) => (n, t)
  | (.error _, t) => (emptyName, t)

/-- The interner with nothing but the empty string. -/
def blank : Interner := ⟨Table.empty.insert "" emptyName, #[""]⟩

/-- The interner with nothing but the well-known words. -/
def initial : Interner := wellKnown.foldl (fun t word => (t.intern word).2) blank

end Interner
end TreeScript
