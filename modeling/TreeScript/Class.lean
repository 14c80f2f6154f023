import TreeScript.Function.Routine
import TreeScript.Table
import TreeScript.Text.Quoted

/-!
# Classes

A class is built once from its declaration and holds its whole hierarchy.  The members that it does
not declare itself are copied in from its superclasses, the first listed one winning, so that finding
a member never walks the hierarchy.
-/

namespace TreeScript

/-- A built class: its superclasses, and the fields, methods and constructors it has, declared or
inherited.  Fields are in order: its own first, then the inherited ones. -/
inductive ClassDef where
  | mk (name : String) (superclasses : List ClassDef) (fields : List (FieldDecl Node))
      (methods : Table (String × Arity) Routine) (constructors : Table Nat (ConstructorDecl Node))

namespace ClassDef

instance : Inhabited ClassDef := ⟨mk "" [] [] .empty .empty⟩

/-! ## Parts -/

/-- The name of a class. -/
def name : ClassDef → String
  | mk n .. => n

/-- The superclasses in the order in which they are listed. -/
def superclasses : ClassDef → List ClassDef
  | mk _ ss .. => ss

/-- The fields, its own first. -/
def fields : ClassDef → List (FieldDecl Node)
  | mk _ _ fs .. => fs

/-- The methods by name and arity. -/
def methods : ClassDef → Table (String × Arity) Routine
  | mk _ _ _ ms _ => ms

/-- The constructors by the number of their parameters. -/
def constructors : ClassDef → Table Nat (ConstructorDecl Node)
  | mk _ _ _ _ cs => cs

/-! ## Building -/

/-- The fields that a class declares, each name at the place of its first declaration with its last
declaration. -/
def ownFields (declared : List (FieldDecl Node)) : List (FieldDecl Node) :=
  declared.foldl (fun fs f =>
    if fs.any (·.name == f.name) then fs.map fun g => if g.name == f.name then f else g
    else fs ++ [f]) []

/-- Add the fields of a superclass whose names are new. -/
def inheritFields (fs inherited : List (FieldDecl Node)) : List (FieldDecl Node) :=
  fs ++ inherited.filter fun f => !fs.any (·.name == f.name)

/-- Add the entries of a superclass whose keys are new. -/
def inheritTable {κ α : Type} [DecidableEq κ] (t inherited : Table κ α) : Table κ α :=
  inherited.entries.foldl (fun t (k, v) => if t.contains k then t else t.insert k v) t

/-- The class that a declaration describes, if all its superclasses are known. -/
def build (d : ClassDecl Node) (known : String → Option ClassDef) : Except EvalError ClassDef := do
  let supers ← d.superclasses.mapM fun n =>
    match known n with
    | some c => .ok c
    | none => .error (.of (.undefinedClass n))
  let methods := d.methods.foldl (fun t m =>
    let r := Routine.ofDecl m
    t.insert (r.name, r.arity) r) Table.empty
  let constructors := d.constructors.foldl (fun t c => t.insert c.params.length c) Table.empty
  return mk d.name supers
    (supers.foldl (fun fs s => inheritFields fs s.fields) (ownFields d.fields))
    (supers.foldl (fun t s => inheritTable t s.methods) methods)
    (supers.foldl (fun t s => inheritTable t s.constructors) constructors)

/-- Add a method, in place of any of the same name and arity. -/
def withMethod (c : ClassDef) (m : Routine) : ClassDef :=
  match c with
  | mk name supers fields methods ctors =>
    mk name supers fields (methods.insert (m.name, m.arity) m) ctors

/-! ## Members -/

/-- The method for a number of arguments: of that arity, else one that takes any number. -/
def method? (c : ClassDef) (name : String) (argc : Nat) : Option Routine :=
  (c.methods.find? (name, .exact argc)).or (c.methods.find? (name, .variadic))

/-- The constructor with a number of parameters. -/
def constructor? (c : ClassDef) (arity : Nat) : Option (ConstructorDecl Node) :=
  c.constructors.find? arity

/-- The constructors with their numbers of parameters, fewest first. -/
def sortedConstructors (c : ClassDef) : List (Nat × ConstructorDecl Node) :=
  c.constructors.entries.mergeSort fun a b => a.1 ≤ b.1

/-! ## Subclasses -/

mutual

/-- Whether a class or one above it has a name. -/
def extendsName : ClassDef → String → Bool
  | mk n supers _ _ _, other => n == other || anyExtendsName supers other

/-- Whether one of several classes extends the class of a name. -/
def anyExtendsName : List ClassDef → String → Bool
  | [], _ => false
  | c :: cs, other => c.extendsName other || anyExtendsName cs other

end

mutual

/-- Whether a class is another one or below it; classes are known by their names. -/
def extendsClass : ClassDef → ClassDef → Bool
  | mk n supers _ _ _, other => n == other.name || anyExtendsClass supers other

/-- Whether one of several classes is another one or below it. -/
def anyExtendsClass : List ClassDef → ClassDef → Bool
  | [], _ => false
  | c :: cs, other => c.extendsClass other || anyExtendsClass cs other

end

/-- The text of a class in a diagnostic. -/
def debugText (c : ClassDef) : String :=
  "ClassDef \x7b name: " ++ Quoted.shown c.name ++ ", fields: " ++ toString c.fields.length ++
    ", methods: " ++ toString c.methods.size ++ ", .. \x7d"

end ClassDef
end TreeScript
