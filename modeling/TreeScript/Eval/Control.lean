import TreeScript.Eval.Calls

/-!
# Statements

Blocks, branches, loops, jumps and exception handling.  Each statement that a `yield` may stand in
takes the first frame off the way back when it begins: with a frame of its own kind it goes on where
it was, in the same scope; without one it begins anew.  When a `yield` leaves it, it adds such a frame.

Loops take a break and a continue; a handler takes exceptions of the program and the failures that may
be caught.  A loop runs on a bound for its rounds, which is the bound of the whole evaluation.
-/

namespace TreeScript
namespace Exec

/-! ## The way back -/

/-- Take the first frame off the way back to the `yield`. -/
def nextFrame : Exec (Option ResumeFrame) := fun _ s =>
  match s.session.resume with
  | [] => (.value none, s)
  | f :: rest =>
    let ⟨h, sites, held, session⟩ := s
    (.value (some f), ⟨h, sites, held, { session with resume := rest }⟩)

/-- The outcome with a frame for the statement that a `yield` leaves. -/
def passedBy (frame : ResumeFrame) : Outcome Value → Outcome Value
  | .signal (.yieldValue v frames) => .signal (.yieldValue v (frame :: frames))
  | o => o

/-- Add a frame if a `yield` leaves an evaluation. -/
@[inline] def leavingFrame (frame : ResumeFrame) (x : Exec Value) : Exec Value :=
  mapOutcome (passedBy frame) x

/-- Fail because the way back leads through another statement. -/
def wrongFrame {α : Type} (frame : ResumeFrame) (kind : String) : Exec α :=
  fail (.custom ("cannot resume coroutine: expected " ++ frame.kindName ++ " but reached " ++ kind))

/-! ## Blocks and branches -/

/-- Evaluate statements from place `i` on; gives the value of the last one, or `last` if there is
none. -/
def runStatements (scope : Nat) : Nat → Value → List Node → Exec Value
  | _, last, [] => pure last
  | i, _, e :: es => do
    let v ← leavingFrame (.inBlock i) (eval e scope)
    runStatements scope (i + 1) v es

/-- Evaluate a block. -/
def evalBlock (statements : List Node) (scope : Nat) : Exec Value := do
  match ← nextFrame with
  | none => runStatements scope 0 .null statements
  | some (.inBlock i) => runStatements scope i .null (statements.drop i)
  | some frame => wrongFrame frame "block"

/-- The place of the first arm whose condition counts as true, counting from `i`. -/
def chooseArm (scope : Nat) : Nat → List (Node × Node) → Exec (Option Nat)
  | _, [] => pure none
  | i, (cond, _) :: arms => do
    if ← toBool (← eval cond scope) then return some i
    else chooseArm scope (i + 1) arms

/-- Evaluate an arm of a branch, or its `else`, in its scope. -/
def runArm (arms : List (Node × Node)) (otherwise : Option Node) (arm : Option Nat) (scope : Nat) :
    Exec Value :=
  let body :=
    match arm with
    | some i => arms[i]?.map (·.2)
    | none => otherwise
  match body with
  | some e => leavingFrame (.inBranch arm scope) (eval e scope)
  | none => fail (.custom "cannot resume coroutine: branch no longer exists")

/-- Evaluate a branch. -/
def evalBranch (arms : List (Node × Node)) (otherwise : Option Node) (scope : Nat) : Exec Value := do
  match ← nextFrame with
  | some (.inBranch arm inner) => runArm arms otherwise arm inner
  | some frame => wrongFrame frame "if"
  | none =>
    let arm ← chooseArm scope 0 arms
    if arm.isNone && otherwise.isNone then return .null
    else
      let inner ← make fun h => h.newScope scope
      runArm arms otherwise arm inner

/-! ## Loops -/

/-- How a round of a loop ends it: not at all, or with a value. -/
def roundEnd : Outcome Value → Outcome (Option Value)
  | .value _ => .value none
  | .signal .continueLoop => .value none
  | .signal (.breakLoop v) => .value (some v)
  | .signal g => .signal g
  | .halted h => .halted h

/-- Evaluate the body of a loop in the scope of a round. -/
@[inline] def runRound (frame : ResumeFrame) (body : Node) (scope : Nat) : Exec (Option Value) :=
  mapOutcome roundEnd (leavingFrame frame (eval body scope))

/-- Run the rounds of a `while`; the first round goes on in a scope that it has already, if any. -/
def whileRounds (cond body : Node) (scope : Nat) : Nat → Option Nat → Exec Value
  | 0, _ => halt .outOfFuel
  | fuel + 1, resumed => do
    let inner ←
      match resumed with
      | some inner => pure (some inner)
      | none =>
        if ← toBool (← eval cond scope) then some <$> make fun h => h.newScope scope
        else pure none
    match inner with
    | none => return .null
    | some inner =>
      match ← runRound (.inWhile inner) body inner with
      | some v => return v
      | none => whileRounds cond body scope fuel none

/-- Evaluate a `while`. -/
def evalWhile (cond body : Node) (scope : Nat) : Exec Value := do
  match ← nextFrame with
  | some (.inWhile inner) => whileRounds cond body scope (← fuel) (some inner)
  | some frame => wrongFrame frame "while"
  | none => whileRounds cond body scope (← fuel) none

/-- The bound of a counted loop that a value means. -/
def rangeBound (v : Value) : Exec Int64 := do
  match ← castValue v .long with
  | .long n => return n
  | w => fail (.typeMismatch "long" (← heap fun h => h.typeName w))

namespace Range

/-- Whether a loop in a direction has a round for a number. -/
def includes (direction : RangeDirection) (i stop : Int64) : Bool :=
  match direction with
  | .up => i ≤ stop
  | .down => stop ≤ i

/-- The number after another; there is none after the last long. -/
def next? (direction : RangeDirection) (i : Int64) : Option Int64 :=
  match direction with
  | .up => if i = Int64.maxValue then none else some (i + 1)
  | .down => if i = Int64.minValue then none else some (i - 1)

end Range

/-- Run the rounds of a counted loop from `current` on; the first round goes on in a scope that it has
already, if any. -/
def rangeRounds (name : String) (ty : TypeKind) (direction : RangeDirection) (stop : Int64)
    (body : Node) (scope : Nat) : Nat → Int64 → Option Nat → Exec Value
  | 0, _, _ => halt .outOfFuel
  | fuel + 1, current, resumed => do
    if Range.includes direction current stop then
      let inner ←
        match resumed with
        | some inner => pure inner
        | none =>
          let inner ← make fun h => h.newScope scope
          let v ← coerce (.long current) ty
          modifyHeap fun h => h.declare inner name ty v
          pure inner
      match ← runRound (.inRange inner current stop) body inner with
      | some v => return v
      | none =>
        match Range.next? direction current with
        | some next => rangeRounds name ty direction stop body scope fuel next none
        | none => return .null
    else return .null

/-- Evaluate a counted loop. -/
def evalRange (name : String) (ty : TypeKind) (start stop : Node) (direction : RangeDirection)
    (body : Node) (scope : Nat) : Exec Value := do
  match ← nextFrame with
  | some (.inRange inner current stop) =>
    rangeRounds name ty direction stop body scope (← fuel) current (some inner)
  | some frame => wrongFrame frame "for"
  | none =>
    let first ← eval start scope
    let last ← eval stop scope
    let first ← rangeBound first
    let last ← rangeBound last
    rangeRounds name ty direction last body scope (← fuel) first none

/-- What a `foreach` over a value visits. -/
def eachSource (v : Value) : Exec EachSource := do
  match v with
  | .list i | .array i => return .items (← heap fun h => (h.sequence i).toList)
  | .map i => return .items (← heap fun h => (h.mapAt i).keys)
  | .str s => return .items ((Units.ofString s).map .char)
  | .coroutine i => return .coroutine i
  | v => fail (.typeMismatch "list, array, map, string or coroutine" (← heap fun h => h.typeName v))

/-- The next value that a `foreach` visits, and what is left after it. -/
def nextItem (source : EachSource) : Exec (Option (Value × EachSource)) := do
  match source with
  | .items [] => return none
  | .items (v :: rest) => return some (v, .items rest)
  | .coroutine i =>
    if ← heap fun h => (h.coroutine i).isFinished then return none
    else return some (← resumeCoroutine i, source)

/-- Run the rounds of a `foreach`; the first round goes on in a scope that it has already, if any. -/
def eachRounds (name : String) (body : Node) (scope : Nat) :
    Nat → EachSource → Option Nat → Exec Value
  | 0, _, _ => halt .outOfFuel
  | fuel + 1, source, resumed => do
    let round ←
      match resumed with
      | some inner => pure (some (inner, source))
      | none =>
        match ← nextItem source with
        | some (v, rest) =>
          let inner ← make fun h =>
            let (inner, h) := h.newScope scope
            (inner, h.declare inner name .any v)
          pure (some (inner, rest))
        | none => pure none
    match round with
    | none => return .null
    | some (inner, source) =>
      match ← runRound (.inEach inner source) body inner with
      | some v => return v
      | none => eachRounds name body scope fuel source none

/-- Evaluate a `foreach`. -/
def evalEach (name : String) (iterable body : Node) (scope : Nat) : Exec Value := do
  match ← nextFrame with
  | some (.inEach inner source) => eachRounds name body scope (← fuel) source (some inner)
  | some frame => wrongFrame frame "foreach"
  | none =>
    let source ← eachSource (← eval iterable scope)
    eachRounds name body scope (← fuel) source none

/-! ## Jumps -/

/-- Evaluate a node that may be missing; a missing one gives null. -/
def evalOptional (e : Option Node) (scope : Nat) : Exec Value :=
  match e with
  | some e => eval e scope
  | none => pure .null

/-- What is done at every node before it is evaluated: a session that is marked evaluates none, the
budget must allow it, and it is counted. -/
def enterNode : Exec Unit := fun _ s =>
  if s.session.cancellation.marked then (.signal (.error (.of .cancelled)), s)
  else
    let ⟨h, sites, held, session⟩ := s
    match session.meter.step with
    | (.ok (), m) => (.value (), ⟨h, sites, held, { session with meter := m.countNode }⟩)
    | (.error e, m) => (.signal (.error e), ⟨h, sites, held, { session with meter := m }⟩)

/-- Evaluate a return.  A call written as the result leaves the scope of this call early. -/
def evalReturn (value : Option Node) (scope : Nat) : Exec Value := do
  let v ←
    match value with
    | some (.call site name args) => do
      enterNode
      evalCall site name args scope true
    | e => evalOptional e scope
  raise (.returnValue v)

/-- Evaluate a yield: the one at which the coroutine stopped gives null, every other one stops it. -/
def evalYield (value : Option Node) (scope : Nat) : Exec Value := do
  match ← nextFrame with
  | some .atYield => return .null
  | some frame => wrongFrame frame "yield"
  | none => do
    let v ← evalOptional value scope
    raise (.yieldValue v [.atYield])

/-! ## Exceptions -/

/-- The name of the class whose instances can be thrown. -/
def exceptionClass : String := "exception"

/-- Evaluate a throw. -/
def evalThrow (value : Node) (scope : Nat) : Exec Value := do
  let v ← eval value scope
  if ← heap fun h => h.isInstance exceptionClass v then raise (.throwValue v)
  else fail .invalidThrow

/-- An exception with the message of a failure. -/
def exceptionFrom (e : EvalError) : Exec Value := do
  match ← session fun s => s.classes.find? exceptionClass with
  | some cls => settle (instantiate cls (cls.constructor? 1) [.str e.message])
  | none => raise (.error e)

/-- Evaluate a handler in the scope that binds the exception. -/
def runHandler (handler : Node) (scope : Nat) : Exec Value :=
  leavingFrame (.inTry (some scope)) (eval handler scope)

/-- Bind an exception and evaluate the handler. -/
def handleException (name : String) (handler : Node) (scope : Nat) (exception : Value) :
    Exec Value := do
  let inner ← make fun h =>
    let (inner, h) := h.newScope scope
    (inner, h.declare inner name .any exception)
  runHandler handler inner

/-- Evaluate a body with a handler for exceptions and for the failures that may be caught. -/
def runTry (body : Node) (name : String) (handler : Node) (scope : Nat) : Exec Value :=
  handle (leavingFrame (.inTry none) (eval body scope)) fun
    | .throwValue v => some (handleException name handler scope v)
    | .error e =>
      if e.isCatchable then
        some do handleException name handler scope (← exceptionFrom e)
      else none
    | _ => none

/-- Evaluate a try. -/
def evalTry (body : Node) (name : String) (handler : Node) (scope : Nat) : Exec Value := do
  match ← nextFrame with
  | some (.inTry (some inner)) => runHandler handler inner
  | some (.inTry none) | none => runTry body name handler scope
  | some frame => wrongFrame frame "try"

end Exec
end TreeScript
