import TreeScript.Class

/-!
# Functions and their catalog

A function is a routine or the constructor of a class.  The catalog finds functions by name and
arity.  Each function added gets a slot of its own for good: replacing or removing a function changes
only which slot a key leads to, so a slot remembered at a call site stays valid.
-/

namespace TreeScript

/-! ## The core library -/

/-- The functions that every session starts with. -/
inductive CoreFunction where
  /-- Write the arguments, separated by blanks, and end the line. -/
  | print
  /-- Write the arguments, separated by blanks. -/
  | printn
  /-- The name of the argument's class or kind. -/
  | typeOf
  | isNull
  /-- Convert the argument to a type. -/
  | convert (name : String) (target : TypeKind)
  /-- Copy the argument, or have its class copy it. -/
  | clone
  /-- Ask for the end of the session. -/
  | exit
  /-- The identity number of the argument. -/
  | identity
  /-- The identity number of the argument in hexadecimal. -/
  | hexIdentity
  /-- Call the first argument with the others. -/
  | accept
  /-- Run a coroutine up to its next `yield`. -/
  | resume
  | isFinished
  /-- A list of the arguments. -/
  | listOf
  /-- A map of the arguments, which are keys and values in turn. -/
  | mapOf
  deriving DecidableEq, Repr

namespace CoreFunction

/-- The name under which a function of the core library is called. -/
def name : CoreFunction → String
  | print => "print"
  | printn => "printn"
  | typeOf => "typeof"
  | isNull => "isNull"
  | convert name _ => name
  | clone => "clone"
  | exit => "exit"
  | identity => "ref.identity"
  | hexIdentity => "ref.hexIdentity"
  | accept => "consumer.accept"
  | resume => "coroutine.resume"
  | isFinished => "coroutine.isFinished"
  | listOf => "list.of"
  | mapOf => "map.of"

/-- One parameter of a type. -/
def single (ty : TypeKind) : Parameters := .fixed [⟨"value", ty⟩]

/-- The parameters of a function of the core library. -/
def parameters : CoreFunction → Parameters
  | print | printn | accept | listOf | mapOf => .variadic
  | typeOf | isNull | convert .. | clone => single .any
  | exit => .fixed []
  | identity | hexIdentity => single .ref
  | resume | isFinished => single .coroutine

/-- The declared type of the result. -/
def returns : CoreFunction → TypeKind
  | print | printn | exit => .void
  | typeOf | hexIdentity => .string
  | isNull | isFinished => .bool
  | convert _ ty => ty
  | identity => .long
  | clone | accept | resume => .any
  | listOf => .list
  | mapOf => .map

/-- The core library. -/
def all : List CoreFunction :=
  [print, printn, typeOf, isNull,
    convert "toString" .string, convert "toInt" .int, convert "toFloat" .float,
    convert "toDouble" .double, convert "toLong" .long, convert "toByte" .byte,
    convert "toShort" .short, convert "toChar" .char, convert "toBool" .bool,
    clone, exit, identity, hexIdentity, accept, resume, isFinished, listOf, mapOf]

end CoreFunction

/-! ## Functions -/

/-- What a name of the catalog stands for. -/
inductive Function where
  | routine (r : Routine)
  | core (c : CoreFunction)
  /-- Makes an instance of a class; without a declared constructor it takes no arguments. -/
  | constructor (cls : ClassDef) (decl? : Option (ConstructorDecl Node))

namespace Function

instance : Inhabited Function := ⟨.constructor default none⟩

/-- The name; a constructor has the name of its class. -/
def name : Function → String
  | routine r => r.name
  | core c => c.name
  | constructor c _ => c.name

/-- The parameters. -/
def parameters : Function → Parameters
  | routine r => r.parameters
  | core c => c.parameters
  | constructor _ decl? => .fixed ((decl?.map (·.params)).getD [])

/-- The declared parameters. -/
def params (f : Function) : List Param := f.parameters.list

/-- The number of arguments taken. -/
def arity (f : Function) : Arity := f.parameters.arity

/-- The declared type of the result. -/
def returns : Function → TypeKind
  | routine r => r.returns
  | core c => c.returns
  | constructor c _ => .object c.name

/-- What a kind of functions is called. -/
def kindName : Function → String
  | routine r => r.kindName
  | core _ => "native"
  | constructor .. => "constructor"

/-- Whether the function is native. -/
def isNative : Function → Bool
  | routine ⟨_, _, _, .native _⟩ | core _ => true
  | _ => false

/-- Whether the function runs a body in a scope of its own. -/
def isScript : Function → Bool
  | routine ⟨_, _, _, .script _⟩ => true
  | _ => false

end Function

/-! ## The catalog -/

/-- The functions of a session. -/
structure Catalog where
  slots : Array Function
  index : Table (String × Arity) Nat

namespace Catalog

/-- The catalog without functions. -/
def empty : Catalog := ⟨#[], .empty⟩

/-- Add a function; its key now leads to the new slot. -/
def add (c : Catalog) (f : Function) : Nat × Catalog :=
  (c.slots.size, ⟨c.slots.push f, c.index.insert (f.name, f.arity) c.slots.size⟩)

/-- The function of a slot. -/
def get? (c : Catalog) (slot : Nat) : Option Function := c.slots[slot]?

/-- The slot of a key. -/
def lookup (c : Catalog) (name : String) (arity : Arity) : Option Nat := c.index.find? (name, arity)

/-- The slot for a call: of the exact arity, else of the function that takes any number. -/
def resolve (c : Catalog) (name : String) (argc : Nat) : Option Nat :=
  (c.lookup name (.exact argc)).or (c.lookup name .variadic)

/-- Take a key out; gives the function it led to. -/
def remove (c : Catalog) (name : String) (arity : Arity) : Option Function × Catalog :=
  match c.lookup name arity with
  | some slot => (c.get? slot, { c with index := c.index.erase (name, arity) })
  | none => (none, c)

/-- How many keys lead to a slot. -/
def size (c : Catalog) : Nat := c.index.size

/-- The function of a key. -/
def function? (c : Catalog) (name : String) (arity : Arity) : Option Function := do
  c.get? (← c.lookup name arity)

/-- The function for a call, with its slot. -/
def callee? (c : Catalog) (name : String) (argc : Nat) : Option (Nat × Function) := do
  let slot ← c.resolve name argc
  return (slot, ← c.get? slot)

/-! ### What slots hold and keys lead to -/

/-- What a slot holds, it holds for good. -/
theorem get?_add {c : Catalog} {slot : Nat} {f : Function} (g : Function)
    (h : c.get? slot = some f) : (c.add g).2.get? slot = some f := by
  obtain ⟨hlt, heq⟩ := Array.getElem?_eq_some_iff.mp h
  show (c.slots.push g)[slot]? = some f
  rw [Array.getElem?_push_lt hlt, heq]

/-- What a slot holds, it has held before, or it has been added. -/
theorem eq_or_get?_of_add {c : Catalog} {f g : Function} {slot : Nat} (h : (c.add f).2.get? slot = some g) :
    g = f ∨ c.get? slot = some g := by
  change (c.slots.push f)[slot]? = some g at h
  rw [Array.getElem?_push] at h
  split at h
  · exact Or.inl (Option.some.inj h).symm
  · exact Or.inr h

@[simp] theorem get?_add_self (c : Catalog) (f : Function) :
    (c.add f).2.get? (c.add f).1 = some f :=
  Array.getElem?_push_size

@[simp] theorem get?_remove (c : Catalog) (name : String) (arity : Arity) (slot : Nat) :
    (c.remove name arity).2.get? slot = c.get? slot := by
  unfold remove
  split <;> rfl

theorem lookup_add (c : Catalog) (f : Function) (name : String) (arity : Arity) :
    (c.add f).2.lookup name arity =
      if (name, arity) = (f.name, f.arity) then some (c.add f).1 else c.lookup name arity :=
  Table.find?_insert ..

theorem lookup_remove (c : Catalog) (name name' : String) (arity arity' : Arity) :
    (c.remove name arity).2.lookup name' arity' =
      if (name', arity') = (name, arity) then none else c.lookup name' arity' := by
  cases h : c.lookup name arity with
  | none =>
    rw [remove, h]
    by_cases heq : (name', arity') = (name, arity)
    · cases heq
      rw [if_pos rfl]
      exact h
    · rw [if_neg heq]
  | some slot =>
    rw [remove, h]
    exact Table.find?_erase ..

/-- What is taken out is what the key led to. -/
theorem remove_fst (c : Catalog) (name : String) (arity : Arity) :
    (c.remove name arity).1 = c.function? name arity := by
  unfold remove function?
  cases c.lookup name arity <;> rfl

end Catalog
end TreeScript
