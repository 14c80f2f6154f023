import TreeScript.Value
import TreeScript.Error

/-!
# Routines

A routine is what a function or method runs: a native action, a body of the program, or a body that
runs as a coroutine.  Its parameters fix how many arguments it takes; only native routines take any
number.
-/

namespace TreeScript

/-! ## Arity -/

/-- How many arguments are taken, as part of the key under which a function is found. -/
inductive Arity where
  | exact (n : Nat)
  /-- Any number; tried after the exact matches. -/
  | variadic
  deriving DecidableEq, Repr, Inhabited

namespace Arity

/-- Whether a number of arguments is taken. -/
def accepts : Arity → Nat → Bool
  | exact n, count => n == count
  | variadic, _ => true

/-- The number a host knows the arity by: `-1` for any number. -/
def toInt : Arity → Int
  | exact n => n
  | variadic => -1

/-- The arity a host's number stands for. -/
def ofInt : Int → Arity
  | .ofNat n => exact n
  | .negSucc _ => variadic

/-- The text of an arity: the number a host knows it by. -/
def text (a : Arity) : String := toString a.toInt

/-- The text of an arity in a diagnostic. -/
def debugText : Arity → String
  | exact n => "Exact(" ++ toString n ++ ")"
  | variadic => "Variadic"

/-- A host's number for an arity reads back. -/
@[simp] theorem ofInt_toInt (a : Arity) : ofInt a.toInt = a := by
  cases a <;> rfl

end Arity

/-- The parameters of a routine. -/
inductive Parameters where
  | fixed (params : List Param)
  | variadic
  deriving DecidableEq, Repr, Inhabited

namespace Parameters

/-- The declared parameters; none where any number of arguments is taken. -/
def list : Parameters → List Param
  | fixed ps => ps
  | variadic => []

/-- The number of arguments that the parameters take. -/
def arity : Parameters → Arity
  | fixed ps => .exact ps.length
  | variadic => .variadic

/-- The type of the parameter at a place; arguments beyond the declared ones are untyped. -/
def typeAt (ps : List Param) (i : Nat) : TypeKind := (ps[i]?.map (·.type)).getD .any

/-- Whether the argument at a place is handed over unevaluated. -/
def isDeferredAt (ps : List Param) (i : Nat) : Bool := typeAt ps i == .consumer

end Parameters

/-! ## Routines -/

/-- What a native routine does. -/
inductive NativeAction where
  /-- Give a value. -/
  | constant (v : Value)
  /-- Give a list of the arguments. -/
  | echo
  /-- Fail as a native failure. -/
  | fail (message : String)
  /-- Fail with an error of the host's own, and a note that says so. -/
  | failCustom (message : String)
  /-- Evaluate a node in the scope that the routine is given. -/
  | evaluate (node : Node)
  /-- Raise a break with a list of the arguments. -/
  | raiseBreak
  /-- Raise a return with a list of the arguments. -/
  | raiseReturn
  /-- Raise a continue. -/
  | raiseContinue
  /-- Give the message of the exception that the method is called on. -/
  | exceptionMessage

/-- How a routine runs. -/
inductive RoutineBody where
  | native (action : NativeAction)
  /-- The body runs in a scope of its own. -/
  | script (body : Node)
  /-- Calling gives a coroutine over the body. -/
  | coroutine (body : Node)

/-- A named piece of code with parameters. -/
structure Routine where
  name : String
  parameters : Parameters
  returns : TypeKind
  body : RoutineBody

namespace Routine

/-- The declared parameters. -/
def params (r : Routine) : List Param := r.parameters.list

/-- The number of arguments taken. -/
def arity (r : Routine) : Arity := r.parameters.arity

/-- The routine that a declaration describes. -/
def ofDecl (d : FunctionDecl Node) : Routine where
  name := d.name
  parameters := .fixed d.params
  returns := d.returns
  body := if d.isCoroutine then .coroutine d.body else .script d.body

/-- What a kind of routines is called. -/
def kindName (r : Routine) : String :=
  match r.body with
  | .native _ => "native"
  | .script _ => "interpreted"
  | .coroutine _ => "coroutine"

end Routine
end TreeScript
