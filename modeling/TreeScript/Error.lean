import TreeScript.Ast.Operator

/-!
# Errors

An evaluation that fails says why with an `ErrorCause`; the wording of every cause is in
`ErrorCause.message`.  Notes add context, and the backtrace names the calls that were live, most
recent first.  The first backtrace given to an error stays.
-/

namespace TreeScript

/-- Why an evaluation fails. -/
inductive ErrorCause where
  | divisionByZero
  | moduloByZero
  | typeMismatch (expected got : String)
  | invalidBinaryOp (left right : String) (op : BinaryOp)
  | invalidUnaryOp (operand : String) (op : UnaryOp)
  | invalidCast (source target : String)
  | undefinedVariable (name : String)
  | undefinedFunction (name : String) (arity : Nat)
  | undefinedClass (name : String)
  | undefinedMethod (method type : String)
  | undefinedField (field cls : String)
  | immutableBinding (name : String)
  | indexOutOfBounds (index : Int) (length : Nat)
  | keyNotFound (key : String)
  | arityMismatch (name : String) (expected got : Nat)
  | stackOverflow (depth : Nat)
  | notCallable (type : String)
  | invalidThrow
  | uncaughtException (message : String)
  /-- A failure of a native function. -/
  | native (message : String)
  | cancelled
  | stepBudgetExceeded (budget : Nat)
  | interpolationUnavailable
  | custom (message : String)
  deriving DecidableEq, Repr, Inhabited

namespace ErrorCause

/-- The wording of a cause. -/
def message : ErrorCause → String
  | divisionByZero => "division by zero"
  | moduloByZero => "modulo by zero"
  | typeMismatch expected got => "type mismatch: expected " ++ expected ++ ", got " ++ got
  | invalidBinaryOp left right op =>
    "operator `" ++ op.symbol ++ "` cannot be applied to " ++ left ++ " and " ++ right
  | invalidUnaryOp operand op => "operator `" ++ op.symbol ++ "` cannot be applied to " ++ operand
  | invalidCast source target => "cannot cast " ++ source ++ " to " ++ target
  | undefinedVariable name => "undefined variable: " ++ name
  | undefinedFunction name arity =>
    "function " ++ name ++ " with " ++ toString arity ++ " arguments not found"
  | undefinedClass name => "class " ++ name ++ " does not exist"
  | undefinedMethod method type => "no method '" ++ method ++ "' on " ++ type
  | undefinedField field cls => "no field '" ++ field ++ "' on class " ++ cls
  | immutableBinding name => "cannot assign to constant: " ++ name
  | indexOutOfBounds index length =>
    "index " ++ toString index ++ " out of bounds for length " ++ toString length
  | keyNotFound key => "key not found: " ++ key
  | arityMismatch name expected got =>
    name ++ " expects " ++ toString expected ++
      (if expected = 1 then " argument" else " arguments") ++ ", got " ++ toString got
  | stackOverflow depth => "maximum recursion depth exceeded (limit: " ++ toString depth ++ ")"
  | notCallable type => type ++ " is not callable"
  | invalidThrow => "Attempted to throw a non-exception object."
  | uncaughtException message => "uncaught exception: " ++ message
  | native message => message
  | cancelled => "evaluation cancelled"
  | stepBudgetExceeded budget => "step budget of " ++ toString budget ++ " evaluations exceeded"
  | interpolationUnavailable => "string interpolation requires an expression parser"
  | custom message => message

/-- The causes that a handler of the program may intercept. -/
def isCatchable : ErrorCause → Bool
  | native _ | divisionByZero | moduloByZero | indexOutOfBounds .. => true
  | _ => false

/-- The causes that stay what they are on their way out of a native function. -/
def isKept : ErrorCause → Bool
  | native _ | cancelled | stepBudgetExceeded _ | stackOverflow _ => true
  | _ => false

end ErrorCause

/-- A failure: its cause, the live calls when it left a call (none if no call was live), and notes
in the order in which they were added. -/
structure EvalError where
  cause : ErrorCause
  backtrace : List String
  notes : List String
  deriving DecidableEq, Repr, Inhabited

namespace EvalError

/-- A failure with a cause and nothing else. -/
def of (cause : ErrorCause) : EvalError := ⟨cause, [], []⟩

/-- The message of a failure is the wording of its cause. -/
def message (e : EvalError) : String := e.cause.message

/-- Add a note. -/
def withNote (e : EvalError) (note : String) : EvalError := { e with notes := e.notes ++ [note] }

/-- Give a backtrace to a failure that has none. -/
def withBacktrace (e : EvalError) (calls : List String) : EvalError :=
  if e.backtrace.isEmpty then { e with backtrace := calls } else e

/-- Whether a handler of the program may intercept the failure. -/
def isCatchable (e : EvalError) : Bool := e.cause.isCatchable

/-- Whether the failure is that the session was cancelled. -/
def isCancellation (e : EvalError) : Bool := e.cause == .cancelled

/-- A failure of native code becomes one that can be caught and has the same message, unless it
comes from a call that the native code made, or is one of those that are kept. -/
def asHostFailure (e : EvalError) : EvalError :=
  if e.backtrace.isEmpty && !e.cause.isKept then { e with cause := .native e.message } else e

/-- Becoming a failure of native code keeps the message. -/
@[simp] theorem message_asHostFailure (e : EvalError) : e.asHostFailure.message = e.message := by
  simp only [asHostFailure]
  split <;> rfl

/-- The text of a backtrace: a numbered line for each call. -/
def backtraceText (calls : List String) : String :=
  if calls.isEmpty then ""
  else "stack backtrace:\n" ++
    String.join (calls.zipIdx.map fun (name, i) => "  " ++ toString i ++ ": " ++ name ++ "\n")

/-- The text of a failure: its message, its notes and its backtrace, on lines of their own. -/
def text (e : EvalError) : String :=
  e.message ++ String.join (e.notes.map ("\n  note: " ++ ·)) ++
    if e.backtrace.isEmpty then "" else "\n" ++ backtraceText e.backtrace

end EvalError

/-! ## Ends without an answer -/

/-- Why a computation stops without anything that the program or its host could see. -/
inductive Halt where
  /-- The bound given for the evaluation was reached. -/
  | outOfFuel
  /-- A structure that contains itself was rendered or compared. -/
  | endless
  /-- A container was written to while it was being rendered. -/
  | heldContainer
  deriving DecidableEq, Repr, Inhabited

/-- How a computation that runs no code of the program ends without a result. -/
inductive Fault where
  | error (e : EvalError)
  | halt (h : Halt)
  deriving DecidableEq, Repr, Inhabited

/-- A computation that runs no code of the program. -/
abbrev Checked := Except Fault

namespace Checked

/-- Fail with a cause. -/
def fail {α : Type} (cause : ErrorCause) : Checked α := .error (.error (.of cause))

/-- The result of a walk through a structure, which must have an end. -/
def ofEnding {α : Type} : Option α → Checked α
  | some a => .ok a
  | none => .error (.halt .endless)

end Checked
end TreeScript
