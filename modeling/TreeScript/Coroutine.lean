import TreeScript.Value
import TreeScript.Error

/-!
# Coroutines

A coroutine is a body with its arguments bound in a scope of its own, which runs up to its next
`yield` each time it is resumed.  A suspended coroutine keeps the way back to that `yield`: one frame
for every statement it stands in, outermost first.  Resuming hands these frames to the evaluation,
which takes one off at each of those statements on its way down.

The states move from created to running, from running to suspended or finished, and from suspended
to running.
-/

namespace TreeScript

/-- Where in its life a coroutine is. -/
inductive CoroutineState where
  | created | running | suspended | finished
  deriving DecidableEq, Repr, Inhabited

/-- What a `foreach` still has to visit. -/
inductive EachSource where
  /-- The rest of what was there when the loop started. -/
  | items (rest : List Value)
  /-- A coroutine, until it is finished. -/
  | coroutine (id : Nat)
  deriving DecidableEq, Repr, Inhabited

/-- Where in a statement a `yield` left it. -/
inductive ResumeFrame where
  /-- At the `yield` itself, which gives null when resumed. -/
  | atYield
  /-- In the statement of a block at a place. -/
  | inBlock (index : Nat)
  /-- In an arm of an `if`, or in its `else`, with the scope of that arm. -/
  | inBranch (arm : Option Nat) (scope : Nat)
  /-- In the body of a `while`. -/
  | inWhile (scope : Nat)
  /-- In the body of a counted loop that is at `current`. -/
  | inRange (scope : Nat) (current stop : Int64)
  /-- In the body of a `foreach`. -/
  | inEach (scope : Nat) (source : EachSource)
  /-- In the body of a `try`, or in its handler with the scope that binds the exception. -/
  | inTry (handler : Option Nat)
  deriving DecidableEq, Repr, Inhabited

/-- What the statement of a frame is called in messages. -/
def ResumeFrame.kindName : ResumeFrame → String
  | atYield => "yield"
  | inBlock _ => "block"
  | inBranch .. => "if"
  | inWhile _ => "while"
  | inRange .. => "for"
  | inEach .. => "foreach"
  | inTry _ => "try"

/-- A body that runs from `yield` to `yield`. -/
structure Coroutine where
  /-- The name of the function whose call made it. -/
  name : String
  params : List Param
  /-- The arguments, converted to the types of the parameters. -/
  args : List Value
  body : Node
  /-- The scope that the scope of the body is a child of. -/
  origin : Nat
  /-- The scope of the body, which binds the arguments. -/
  scope : Nat
  state : CoroutineState
  /-- The way back to the `yield`, outermost statement first. -/
  frames : List ResumeFrame

namespace Coroutine

instance : Inhabited Coroutine := ⟨⟨"", [], [], default, 0, 0, .created, []⟩⟩

/-- Whether the body has run to its end. -/
def isFinished (c : Coroutine) : Bool := c.state == .finished

/-- Start or go on running: gives the way back to the `yield` and the running coroutine, or nothing
if the coroutine is finished.  A running coroutine cannot be resumed. -/
def begin? (c : Coroutine) : Except EvalError (Option (List ResumeFrame × Coroutine)) :=
  match c.state with
  | .running => .error (.of (.custom "coroutine is already running"))
  | .finished => .ok none
  | .created | .suspended => .ok (some (c.frames, { c with state := .running, frames := [] }))

theorem begin?_eq_some {c running : Coroutine} {frames : List ResumeFrame}
    (h : c.begin? = .ok (some (frames, running))) :
    frames = c.frames ∧ running = { c with state := .running, frames := [] } := by
  unfold begin? at h
  split at h <;> cases h <;> exact ⟨rfl, rfl⟩

theorem begin?_of_running {c : Coroutine} (h : c.state = .running) :
    c.begin? = .error (.of (.custom "coroutine is already running")) := by
  rw [begin?, h]

theorem begin?_of_finished {c : Coroutine} (h : c.state = .finished) : c.begin? = .ok none := by
  rw [begin?, h]

/-- Stop at a `yield` with the way back to it. -/
def suspend (c : Coroutine) (frames : List ResumeFrame) : Coroutine :=
  { c with state := .suspended, frames := frames }

/-- The body has run to its end. -/
def finish (c : Coroutine) : Coroutine := { c with state := .finished, frames := [] }

end Coroutine

/-- The text of a state in a diagnostic. -/
def CoroutineState.debugText : CoroutineState → String
  | created => "Created"
  | running => "Running"
  | suspended => "Suspended"
  | finished => "Finished"

end TreeScript
