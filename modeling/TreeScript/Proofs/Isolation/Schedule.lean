import TreeScript.Proofs.Arity.Calls
import TreeScript.Proofs.Constructs

/-
# Coroutines that take turns

A schedule makes coroutines, clones them, and asks them for what they yield or whether they are finished, in
any order.  Each of them is also a run of its own: it is made from the same arguments in the state in which the
schedule begins, and is asked the same, with nothing in between.

A body is confined if in this run of its own it calls nothing, defines no class, touches no variable but those
that are bound in its own scopes, and handles no value that is kept in storage.  What happens in a run is not a
property of its tree, so it is watched by an evaluator that stops where a body leaves its confines.
-/

namespace TreeScript

open Exec

/-! ## Schedules -/

/-- What a coroutine is made from. -/
structure Start where
  name : String
  params : List Param
  body : Node
  /-- The arguments, converted to the types of the parameters. -/
  args : List Value
  /-- The scope that the scope of the body is to be a child of. -/
  origin : Nat

/-- Where a coroutine is resumed: how many steps of the budget have been taken, and which calls are live. -/
structure Caller where
  steps : Nat
  calls : CallStack

/-- What a coroutine is asked. -/
inductive Question where
  | resume (caller : Caller)
  | isFinished

/-- One step of a schedule; coroutines are counted in the order in which they are made. -/
inductive Task where
  | make (c : Start)
  | clone (k : Nat)
  | ask (k : Nat) (q : Question)

/-- Make a coroutine. -/
def Start.make (c : Start) (h : Heap) : Nat × Heap :=
  h.newCoroutine c.name c.params c.body c.args c.origin

/-- Where the next evaluation begins. -/
def Caller.enter (caller : Caller) (s : State) : State :=
  (s.withMeter { s.session.meter with steps := caller.steps }).withCalls caller.calls

/-- The answer of a coroutine. -/
def Question.answer (i : Nat) : Question → Exec Value
  | .resume caller => fun ev s => resumeCoroutine i ev (caller.enter s)
  | .isFinished => heap fun h => .bool (h.coroutine i).isFinished

/-- The answers to the questions of a schedule, each with the coroutine that was asked; `made` are the
coroutines that have been made already.  What concerns a coroutine that has not been made is left out. -/
def play (ev : Evaluator) : List Task → List Nat → State → List (Nat × Outcome Value)
  | [], _, _ => []
  | .make c :: rest, made, s =>
    let (i, h) := c.make s.heap
    play ev rest (made ++ [i]) (s.withHeap h)
  | .clone k :: rest, made, s =>
    match made[k]? with
    | some i =>
      let (j, h) := s.heap.restart i
      play ev rest (made ++ [j]) (s.withHeap h)
    | none => play ev rest made s
  | .ask k q :: rest, made, s =>
    match made[k]? with
    | some i =>
      let (o, t) := q.answer i ev s
      (k, o) :: play ev rest made t
    | none => play ev rest made s

/-- The answers of one coroutine. -/
def answersOf (k : Nat) (answers : List (Nat × Outcome Value)) : List (Outcome Value) :=
  (answers.filter fun a => a.1 == k).map (·.2)

/-! ## Runs of their own -/

/-- A coroutine and what it is asked. -/
structure Solo where
  start : Start
  questions : List Question

/-- What a step asks a coroutine. -/
def Task.question? (k : Nat) : Task → Option Question
  | .ask j q => if j = k then some q else none
  | _ => none

/-- What a step makes a coroutine from, if it makes one; `made` is what those that have been made already were
made from.  A clone is made from what its original was made from. -/
def Task.makes? (made : List Start) : Task → Option Start
  | .make c => some c
  | .clone k => made[k]?
  | .ask .. => none

/-- The coroutines that a schedule makes, in order, with what they are asked. -/
def solos : List Task → List Start → List Solo
  | [], _ => []
  | task :: rest, made =>
    match task.makes? made with
    | some c => ⟨c, rest.filterMap (Task.question? made.length)⟩ :: solos rest (made ++ [c])
    | none => solos rest made

/-- The answers of a coroutine that is asked alone. -/
def serve (ev : Evaluator) (i : Nat) : List Question → State → List (Outcome Value)
  | [], _ => []
  | q :: qs, s => (q.answer i ev s).1 :: serve ev i qs (q.answer i ev s).2

/-- The answers of a coroutine that is made, and then asked alone. -/
def Solo.answers (a : Solo) (ev : Evaluator) (s : State) : List (Outcome Value) :=
  serve ev (a.start.make s.heap).1 a.questions (s.withHeap (a.start.make s.heap).2)

/-! ## Confined bodies -/

/-- The value is not kept in storage. -/
def Value.Primitive (v : Value) : Prop := v.storage? = none

instance (v : Value) : Decidable v.Primitive := inferInstanceAs (Decidable (_ = _))

/-- Whether a scope binds a name, or one around it that is still inside `origin`. -/
def Heap.owns (h : Heap) (origin c : Nat) (x : String) : Bool :=
  ((h.chain c).takeWhile fun a => a ≠ origin).any fun a => (h.lookupLocal a x).isSome

/-- Whether the source of an expression, if it can be read, has no call in it. -/
def Session.readsNoCall (s : Session) (source : String) : Bool :=
  match s.parser? with
  | none => true
  | some parse =>
    match parse source with
    | .ok e => e.calls.isEmpty
    | .error _ => true

/-- Whether no expression of a template has a call in it. -/
def Session.callsNothing (s : Session) (template : String) : Bool :=
  ((Template.segments? template).getD []).all fun
    | .text _ => true
    | .source source => s.readsNoCall source

namespace Exec

/-- Stop if something is not so, as though the bound of the evaluation had been reached. -/
def stopUnless (ok : State → Bool) : Exec Unit := fun _ s =>
  if ok s then (.value (), s) else (.halted .outOfFuel, s)

/-- Stop where a body leaves its confines. -/
def leaveConfines {α : Type} : Exec α := halt .outOfFuel

/-- What a node does in a scope inside `origin`, up to where it would call a function, define a class, let a
handler begin, or touch a variable from outside. -/
def dispatchInside (origin : Nat) (node : Node) (scope : Nat) : Exec Value :=
  match node with
  | .call .. | .methodCall .. | .returnWith (some (.call ..)) | .classDef _ => leaveConfines
  | .var x | .delete x => do
    stopUnless fun s => s.heap.owns origin scope x
    dispatch node scope
  | .this => do
    stopUnless fun s => s.heap.owns origin scope "this"
    dispatch node scope
  | .assign x e => do
    let v ← eval e scope
    stopUnless fun s => s.heap.owns origin scope x
    afterFirst node scope v
  | .template t => do
    stopUnless fun s => s.session.callsNothing t
    dispatch node scope
  | .tryCatch body x handler => evalTryWith leaveConfines body x handler scope
  | node => dispatch node scope

/-- What a node does in a scope inside `origin`, as long as it gives primitive values. -/
def dispatchConfined (origin : Nat) (node : Node) (scope : Nat) : Exec Value := do
  let v ← dispatchInside origin node scope
  if v.Primitive then return v else leaveConfines

/-- The evaluator, with a bound, for bodies that are confined inside `origin`. -/
def confinedEvaluator (origin fuel : Nat) : Evaluator :=
  .untraced fuel (evaluateBy (dispatchConfined origin) fuel)

end Exec

/-- Whether an evaluation has been stopped by its bound. -/
def Outcome.isStopped {α : Type} : Outcome α → Bool
  | .halted .outOfFuel => true
  | _ => false

/-- A coroutine that is made in a state and then asked alone stays within its confines, and answers every
question within a bound. -/
structure Solo.Confined (a : Solo) (fuel : Nat) (s : State) : Prop where
  origin : a.start.origin < s.heap.scopes.size
  answers : ∀ o ∈ a.answers (confinedEvaluator a.start.origin fuel) s, o.isStopped = false

instance (a : Solo) (fuel : Nat) (s : State) : Decidable (a.Confined fuel s) :=
  decidable_of_iff
    (a.start.origin < s.heap.scopes.size ∧
      ∀ o ∈ a.answers (confinedEvaluator a.start.origin fuel) s, o.isStopped = false)
    ⟨fun h => ⟨h.1, h.2⟩, fun h => ⟨h.1, h.2⟩⟩

end TreeScript
