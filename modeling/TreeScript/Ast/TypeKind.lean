/-!
# Declared types

A variable, parameter or field is declared with a `TypeKind`: one of the keyword types, or the
name of a class.  Three keyword types (`any`, `void`, `ref`) leave a slot untyped; seven are
numeric.
-/

namespace TreeScript

/-- The declared type of a slot; every word that is no keyword names a class. -/
inductive TypeKind where
  | bool | byte | short | char | int | long | float | double
  | string | list | map | array | ref | any | void | consumer | coroutine
  | object (cls : String)
  deriving DecidableEq, Repr, Inhabited

namespace TypeKind

/-! ## Keywords -/

/-- The type a keyword stands for; `var` is another spelling of `any`. -/
def ofKeyword? (word : String) : Option TypeKind :=
  match word with
  | "bool" => some bool
  | "byte" => some byte
  | "short" => some short
  | "char" => some char
  | "int" => some int
  | "long" => some long
  | "float" => some float
  | "double" => some double
  | "string" => some string
  | "list" => some list
  | "map" => some map
  | "array" => some array
  | "ref" => some ref
  | "var" => some any
  | "any" => some any
  | "void" => some void
  | "consumer" => some consumer
  | "coroutine" => some coroutine
  | _ => none

/-- The type a word of a declaration stands for. -/
def ofWord (word : String) : TypeKind := (ofKeyword? word).getD (.object word)

/-- The keyword of a type; a class type has none. -/
def keyword? : TypeKind → Option String
  | bool => some "bool"
  | byte => some "byte"
  | short => some "short"
  | char => some "char"
  | int => some "int"
  | long => some "long"
  | float => some "float"
  | double => some "double"
  | string => some "string"
  | list => some "list"
  | map => some "map"
  | array => some "array"
  | ref => some "ref"
  | any => some "any"
  | void => some "void"
  | consumer => some "consumer"
  | coroutine => some "coroutine"
  | object _ => none

/-- The text of a type: its keyword, or `object` for every class. -/
def text (ty : TypeKind) : String := ty.keyword?.getD "object"

/-- Reading a type's keyword gives the type back. -/
theorem ofKeyword?_of_keyword? {ty : TypeKind} {word : String} (h : ty.keyword? = some word) :
    ofKeyword? word = some ty := by
  cases ty <;> simp [keyword?] at h <;> subst h <;> rfl

/-! ## Families -/

/-- Untyped slots keep whatever is written to them. -/
def isUntyped : TypeKind → Bool
  | ref | any | void => true
  | _ => false

/-- The seven number types; `bool` is not one of them. -/
def isNumeric : TypeKind → Bool
  | byte | short | char | int | long | float | double => true
  | _ => false

end TypeKind
end TreeScript
