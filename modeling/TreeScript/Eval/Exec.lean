import TreeScript.Session.State

/-!
# Evaluations

An evaluation works on a `State` and ends with an `Outcome`: a value, a signal, or a halt.  Signals
are the jumps of the program (break, continue, return, yield, throw) and errors; every construct
between the one that raises a signal and the one that takes it lets it through.  The state keeps all
that was done before the signal.

`Exec` is the type of evaluations.  The constructs of the language are defined one by one as
evaluations that call the evaluator of nodes only through `Exec.eval`; the evaluator is tied to itself
in a single place, where it is also given its bound.  What brackets an evaluation (a live call, the
way back of a coroutine, the ownership of a scope, a container being rendered) is a function from
evaluations to evaluations that undoes at the end what it did at the beginning, whatever the outcome.
-/

namespace TreeScript

/-- What unwinds an evaluation up to the construct that takes it. -/
inductive Signal where
  /-- Leave the innermost loop, which gives the value. -/
  | breakLoop (v : Value)
  /-- Go on with the next round of the innermost loop. -/
  | continueLoop
  /-- Leave the call, which gives the value. -/
  | returnValue (v : Value)
  /-- Suspend the coroutine; the frames lead from the statements passed so far, outermost first, to
  the `yield`. -/
  | yieldValue (v : Value) (frames : List ResumeFrame)
  /-- An exception of the program. -/
  | throwValue (v : Value)
  | error (e : EvalError)
  deriving DecidableEq, Repr, Inhabited

/-- How an evaluation ends. -/
inductive Outcome (α : Type) where
  | value (a : α)
  | signal (s : Signal)
  /-- It stops without anything that the program could see. -/
  | halted (h : Halt)
  deriving Repr

instance {α : Type} : Inhabited (Outcome α) := ⟨.halted .outOfFuel⟩

/-- The value that an outcome gives, if it gives one. -/
def Outcome.value? {α : Type} : Outcome α → Option α
  | .value a => some a
  | _ => none

theorem Outcome.value?_eq_some {α : Type} {o : Outcome α} {a : α} :
    o.value? = some a ↔ o = .value a := by
  cases o <;> simp [value?]

/-- The evaluator of nodes as the constructs see it: one level further down, with a bound for the
rounds of loops.  Bodies that begin are traced, with their parameters and arguments. -/
structure Evaluator where
  fuel : Nat
  eval : Node → Nat → State → Outcome Value × State
  trace : List Param → List Value → State → Outcome Unit × State

/-- An evaluator whose trace goes nowhere. -/
def Evaluator.untraced (fuel : Nat) (eval : Node → Nat → State → Outcome Value × State) : Evaluator :=
  ⟨fuel, eval, fun _ _ s => (.value (), s)⟩

/-- An evaluation that gives an `α`. -/
def Exec (α : Type) : Type := Evaluator → State → Outcome α × State

namespace Exec

/-! ## Sequencing -/

/-- Give a value. -/
@[always_inline, inline]
protected def pure {α : Type} (a : α) : Exec α := fun _ s => (.value a, s)

/-- Go on with the value of an evaluation, if it gives one. -/
@[always_inline, inline]
protected def bind {α β : Type} (x : Exec α) (f : α → Exec β) : Exec β := fun ev s =>
  match x ev s with
  | (.value a, s) => f a ev s
  | (.signal g, s) => (.signal g, s)
  | (.halted h, s) => (.halted h, s)

instance : Monad Exec where
  pure := Exec.pure
  bind := Exec.bind

@[simp] theorem pure_apply {α : Type} (a : α) (ev : Evaluator) (s : State) :
    (pure a : Exec α) ev s = (.value a, s) := rfl

theorem bind_apply {α β : Type} (x : Exec α) (f : α → Exec β) (ev : Evaluator) (s : State) :
    (x >>= f) ev s =
      match x ev s with
      | (.value a, s) => f a ev s
      | (.signal g, s) => (.signal g, s)
      | (.halted h, s) => (.halted h, s) := rfl

/-! ## Outcomes -/

/-- Raise a signal. -/
@[inline] def raise {α : Type} (g : Signal) : Exec α := fun _ s => (.signal g, s)

/-- Stop. -/
@[inline] def halt {α : Type} (h : Halt) : Exec α := fun _ s => (.halted h, s)

/-- Fail. -/
@[inline] def fail {α : Type} (cause : ErrorCause) : Exec α := raise (.error (.of cause))

/-- The result of a computation that can fail. -/
@[inline] def ofExcept {α : Type} : Except EvalError α → Exec α
  | .ok a => pure a
  | .error e => raise (.error e)

/-- The result of a computation that runs no code of the program. -/
@[inline] def ofChecked {α : Type} : Checked α → Exec α
  | .ok a => pure a
  | .error (.error e) => raise (.error e)
  | .error (.halt h) => halt h

/-- Turn the outcome of an evaluation into another. -/
@[inline] def mapOutcome {α β : Type} (f : Outcome α → Outcome β) (x : Exec α) : Exec β :=
  fun ev s =>
    match x ev s with
    | (o, s) => (f o, s)

/-- Take the signals of an evaluation: nothing lets the signal through. -/
@[inline] def handle {α : Type} (x : Exec α) (take : Signal → Option (Exec α)) : Exec α :=
  fun ev s =>
    match x ev s with
    | (.signal g, s) =>
      match take g with
      | some y => y ev s
      | none => (.signal g, s)
    | r => r

/-! ## The evaluator -/

/-- Evaluate a node in a scope. -/
@[inline] def eval (e : Node) (scope : Nat) : Exec Value := fun ev s => ev.eval e scope s

/-- The bound for the rounds of loops. -/
@[inline] def fuel : Exec Nat := fun ev s => (.value ev.fuel, s)

/-- Trace a body that begins. -/
@[inline] def entering (params : List Param) (args : List Value) : Exec Unit := fun ev s =>
  ev.trace params args s

/-! ## State -/

/-- Read from the state. -/
@[inline] def gets {α : Type} (f : State → α) : Exec α := fun _ s => (.value (f s), s)

/-- Read from the heap. -/
@[inline] def heap {α : Type} (f : Heap → α) : Exec α := fun _ s => (.value (f s.heap), s)

/-- Read from the session. -/
@[inline] def session {α : Type} (f : Session → α) : Exec α := fun _ s => (.value (f s.session), s)

/-- Change the heap. -/
@[inline] def modifyHeap (f : Heap → Heap) : Exec Unit := fun _ s =>
  let ⟨h, sites, held, session⟩ := s
  (.value (), ⟨f h, sites, held, session⟩)

/-- Make something in the heap. -/
@[inline] def make {α : Type} (f : Heap → α × Heap) : Exec α := fun _ s =>
  let ⟨h, sites, held, session⟩ := s
  let (a, h) := f h
  (.value a, ⟨h, sites, held, session⟩)

/-- Change the session. -/
@[inline] def modifySession (f : Session → Session) : Exec Unit := fun _ s =>
  let ⟨h, sites, held, session⟩ := s
  (.value (), ⟨h, sites, held, f session⟩)

/-- Change the meter of the session. -/
@[inline] def meter (f : Meter → Meter) : Exec Unit :=
  modifySession fun s => { s with meter := f s.meter }

/-- The result of a computation on the heap that may make something there. -/
@[inline] def makeChecked {α : Type} (f : Heap → Checked (α × Heap)) : Exec α := do
  let (a, h) ← ofChecked (← heap f)
  modifyHeap fun _ => h
  return a

/-! ## Boundaries of calls -/

/-- The outcome that a call has for its caller: the jumps that do not leave a call give their values,
and continuing gives null. -/
def settled : Outcome Value → Outcome Value
  | .signal (.returnValue v) => .value v
  | .signal (.breakLoop v) => .value v
  | .signal (.yieldValue v _) => .value v
  | .signal .continueLoop => .value .null
  | o => o

/-- Let no jump leave an evaluation. -/
@[inline] def settle (x : Exec Value) : Exec Value := mapOutcome settled x

/-- The outcome that native code has for its caller. -/
def hostFailed {α : Type} : Outcome α → Outcome α
  | .signal (.error e) => .signal (.error e.asHostFailure)
  | o => o

/-- Turn failures into failures of native code. -/
@[inline] def asNative {α : Type} (x : Exec α) : Exec α := mapOutcome hostFailed x

/-- Give a failure the live calls of a session as its backtrace. -/
def traced {α : Type} (calls : CallStack) : Outcome α → Outcome α
  | .signal (.error e) => .signal (.error (calls.attach e))
  | o => o

/-- Evaluate as a live call of a name, if there may be one more.  Failures are given the live calls as
their backtrace. -/
@[inline] def asCall (name : String) (x : Exec Value) : Exec Value := fun ev s =>
  let ⟨h, sites, held, session⟩ := s
  match session.calls.push name with
  | .error e => (.signal (.error (session.calls.attach e)), ⟨h, sites, held, session⟩)
  | .ok calls =>
    match x ev ⟨h, sites, held, { session with calls := calls }⟩ with
    | (o, ⟨h, sites, held, session⟩) =>
      (traced session.calls o, ⟨h, sites, held, { session with calls := session.calls.pop }⟩)

/-- Evaluate with a way back to a `yield`, instead of the present one. -/
@[inline] def withResume {α : Type} (frames : List ResumeFrame) (x : Exec α) : Exec α := fun ev s =>
  let ⟨h, sites, held, session⟩ := s
  let saved := session.resume
  match x ev ⟨h, sites, held, { session with resume := frames }⟩ with
  | (o, ⟨h, sites, held, session⟩) => (o, ⟨h, sites, held, { session with resume := saved }⟩)

end Exec

namespace Session

/-- Leave the scope of a frame to the function it is pooled under, unless it has been left already or
is held by a callable. -/
def leave (s : Session) : Frame → Session
  | .pooled (some function) scope false false => { s with pool := s.pool.release function scope }
  | _ => s

/-- Take the innermost frame away. -/
def popFrame (s : Session) : Session :=
  match s.frames with
  | frame :: rest => { s with frames := rest }.leave frame
  | [] => s

/-- The scope of the innermost frame is held by a callable from now on. -/
def retainFrame (s : Session) : Session :=
  match s.frames with
  | .pooled function scope released _ :: rest =>
    { s with frames := .pooled function scope released true :: rest }
  | _ => s

/-- Leave the scope of the innermost frame early. -/
def releaseFrame (s : Session) : Session :=
  match s.frames with
  | .pooled (some function) scope false false :: rest =>
    { s with
      frames := .pooled (some function) scope true false :: rest
      pool := s.pool.release function scope }
  | _ => s

end Session

namespace Exec

/-- Evaluate a body that runs in a frame. -/
@[inline] def withFrame {α : Type} (frame : Frame) (x : Exec α) : Exec α := fun ev s =>
  let ⟨h, sites, held, session⟩ := s
  match x ev ⟨h, sites, held, { session with frames := frame :: session.frames }⟩ with
  | (o, ⟨h, sites, held, session⟩) => (o, ⟨h, sites, held, session.popFrame⟩)

/-- Evaluate as a live call of a body that owns no pooled scope. -/
@[inline] def asBarrier (name : String) (x : Exec Value) : Exec Value :=
  asCall name (settle (withResume [] (withFrame .barrier x)))

/-- Evaluate while a container is being rendered. -/
@[inline] def holding {α : Type} (container : Value) (x : Exec α) : Exec α := fun ev s =>
  let ⟨h, sites, held, session⟩ := s
  match x ev ⟨h, sites, container :: held, session⟩ with
  | (o, ⟨h, sites, _, session⟩) => (o, ⟨h, sites, held, session⟩)

end Exec
end TreeScript
