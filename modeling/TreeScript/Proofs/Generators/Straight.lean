import TreeScript.Proofs.Constructs

/-
# Bodies that run straight through

What a coroutine is meant to do is to run its body once, straight through: a `yield` hands its value
out, waits until it is resumed, and goes on right behind itself with null.  Here a body is run in just
this way.  No way back is recorded, nothing that has been evaluated is evaluated again, and loops and
handlers stay where they are while a `yield` in them waits.

In what state the body goes on is up to the outside, which may have changed anything; the states are
given in advance, one for each time that the body is resumed.

Two things of the evaluator show.  The nodes around a `yield` are entered again when it is resumed,
and count against the budget.  A loop has a bound for the rounds of each resume.
-/

namespace TreeScript

/-- What a run does while it is resumed: the values it yields, with the states in which it waits, and
how it ends, unless it is still waiting. -/
structure Course (α : Type) where
  yields : List (Value × State)
  ends : Option (Outcome α × State)

namespace Course

variable {α β : Type}

/-- A course after what has been yielded before. -/
def after (before : List (Value × State)) (c : Course α) : Course α := ⟨before ++ c.yields, c.ends⟩

/-- Go on with a course that has ended; it matters whether it has waited. -/
def goOn (c : Course α) (outs : List State)
    (first later : Outcome α × State → List State → Course β) : Course β :=
  match c.ends with
  | none => ⟨c.yields, none⟩
  | some r =>
    if c.yields.isEmpty then first r outs
    else (later r (outs.drop c.yields.length)).after c.yields

/-- A course waits no more by going on with what does not wait. -/
theorem length_goOn {c : Course α} {outs : List State}
    {f : Outcome α × State → List State → Course β} (hf : ∀ r outs, (f r outs).yields = [])
    (hc : c.ends.isSome → c.yields.length ≤ outs.length)
    (h : (c.goOn outs f f).ends.isSome) : (c.goOn outs f f).yields.length ≤ outs.length := by
  rcases c with ⟨_ | ⟨y, ys⟩, _ | r⟩
  · exact Nat.zero_le _
  · show (f r outs).yields.length ≤ _
    rw [hf]
    exact Nat.zero_le _
  · cases h
  · show (y :: ys ++ (f r _).yields).length ≤ _
    rw [hf, List.append_nil]
    exact hc rfl

/-- Going on twice is going on once, with something that goes on itself. -/
theorem goOn_goOn {γ : Type} (c : Course α) (outs : List State)
    (first later : Outcome α × State → List State → Course β)
    (first' later' : Outcome β × State → List State → Course γ) :
    (c.goOn outs first later).goOn outs first' later' =
      c.goOn outs (fun r outs => (first r outs).goOn outs first' later')
        fun r outs => (later r outs).goOn outs later' later' := by
  rcases c with ⟨_ | ⟨y, ys⟩, _ | r⟩
  · rfl
  · rfl
  · rfl
  · show ((later r (outs.drop (ys.length + 1))).after (y :: ys)).goOn outs first' later' =
      ((later r (outs.drop (ys.length + 1))).goOn (outs.drop (ys.length + 1)) later' later').after
        (y :: ys)
    rcases later r (outs.drop (ys.length + 1)) with ⟨zs, _ | r'⟩
    · rfl
    · -- the waits of both are left out of the states that remain
      have hdrop : outs.drop (y :: ys ++ zs).length = (outs.drop (ys.length + 1)).drop zs.length := by
        rw [List.drop_drop, List.length_append, List.length_cons]
      show (later' r' (outs.drop (y :: ys ++ zs).length)).after (y :: ys ++ zs) = _
      rw [hdrop]
      cases zs with
      | nil =>
        rw [List.append_nil]
        rfl
      | cons z zs =>
        show Course.mk _ _ = Course.mk _ _
        rw [List.append_assoc]
        rfl

end Course

/-- A run from a state, with the states in which it goes on when it is resumed. -/
def Straight (α : Type) : Type := State → List State → Course α

namespace Straight

variable {α β σ : Type}

/-! ## Sequencing -/

/-- End with an outcome. -/
def give (o : Outcome α) : Straight α := fun s _ => ⟨[], some (o, s)⟩

/-- Evaluate without a `yield`. -/
def lift (ev : Evaluator) (x : Exec α) : Straight α := fun s _ => ⟨[], some (x ev s)⟩

/-- Hand a value out, and go on in the state in which the run is resumed. -/
def emit (v : Value) : Straight Unit := fun s outs =>
  match outs with
  | [] => ⟨[(v, s)], none⟩
  | next :: _ => ⟨[(v, s)], some (.value (), next)⟩

/-- Go on with an outcome. -/
def andThen (x : Straight α) (f : Outcome α → Straight β) : Straight β := fun s outs =>
  (x s outs).goOn outs (fun r => f r.1 r.2) fun r => f r.1 r.2

/-- Nothing is done by going on with the outcome itself. -/
theorem andThen_give (x : Straight α) : x.andThen give = x := by
  funext s outs
  unfold andThen Course.goOn
  rcases x s outs with ⟨_ | ⟨y, ys⟩, _ | r⟩
  · rfl
  · rfl
  · rfl
  · show Course.mk (y :: ys ++ []) _ = _
    rw [List.append_nil]
    rfl

/-- Go on with a value. -/
def onValue (f : α → Straight β) : Outcome α → Straight β
  | .value a => f a
  | .signal g => give (.signal g)
  | .halted h => give (.halted h)

instance : Monad Straight where
  pure a := give (.value a)
  bind x f := x.andThen (onValue f)

/-- Go on where a signal is taken. -/
def onSignal (take : Signal → Option (Straight α)) : Outcome α → Straight α
  | .signal g => (take g).getD (give (.signal g))
  | o => give o

/-- Take the signals of a run. -/
def handle (x : Straight α) (take : Signal → Option (Straight α)) : Straight α :=
  x.andThen (onSignal take)

/-! ## Loops -/

/-- How a loop goes on after a round. -/
def onRound (next : σ → Straight Value) : Outcome (Value ⊕ σ) → Straight Value
  | .value (.inl v) => give (.value v)
  | .value (.inr a) => next a
  | .signal g => give (.signal g)
  | .halted h => give (.halted h)

/-- Run rounds until one ends the loop with a value.  The bound for the rounds is `bound` again when the
run has been resumed, of which the round that was left takes one. -/
def loop (bound : Nat) (round : σ → Straight (Value ⊕ σ)) : Nat → σ → Straight Value
  | 0, _, s, _ => ⟨[], some (.halted .outOfFuel, s)⟩
  | m + 1, a, s, outs =>
    match round a s outs with
    | ⟨[], some (o, t)⟩ => onRound (fun b t _ => loop bound round m b t outs) o t outs
    | ⟨y :: ys, some (o, t)⟩ =>
      match outs with
      | [] => ⟨y :: ys, none⟩
      | _ :: outs =>
        let left := outs.drop ys.length
        (onRound (fun b t _ => loop bound round (bound - 1) b t left) o t left).after (y :: ys)
    | ⟨ys, none⟩ => ⟨ys, none⟩
termination_by m _ _ outs => (outs.length, m)
decreasing_by
  · exact Prod.Lex.right _ (Nat.lt_succ_self m)
  · refine Prod.Lex.left _ _ ?_
    rw [List.length_cons, List.length_drop]
    omega

/-- A round comes first, and the loop goes on after it. -/
theorem loop_succ (bound : Nat) (round : σ → Straight (Value ⊕ σ)) (m : Nat) (a : σ) (s : State)
    (outs : List State)
    (h : (round a s outs).ends.isSome → (round a s outs).yields.length ≤ outs.length) :
    loop bound round (m + 1) a s outs =
      (round a s outs).goOn outs
        (fun r outs => onRound (loop bound round m) r.1 r.2 outs)
        fun r outs => onRound (loop bound round (bound - 1)) r.1 r.2 outs := by
  rw [loop]
  generalize round a s outs = r at h
  rcases r with ⟨_ | ⟨y, ys⟩, _ | ⟨o, t⟩⟩
  · rfl
  · rcases o with (_ | _) | _ | _ <;> rfl
  · rfl
  · cases outs with
    | nil => exact absurd (h rfl) (Nat.not_succ_le_zero _)
    | cons next outs => rcases o with (_ | _) | _ | _ <;> rfl

end Straight

/-! ## Rounds -/

namespace Exec

/-- Begin a round of a `while`: in a new scope, if the condition counts as true. -/
def beginWhile (cond : Node) (scope : Nat) (_ : Unit) : Exec (Option (Nat × Option Unit)) := do
  if ← toBool (← eval cond scope) then
    let inner ← make fun h => h.newScope scope
    return some (inner, some ())
  else return none

/-- Begin a round of a counted loop: in a new scope that binds the number. -/
def beginRange (name : String) (ty : TypeKind) (direction : RangeDirection) (stop : Int64) (scope : Nat)
    (current : Int64) : Exec (Option (Nat × Option Int64)) := do
  if Range.includes direction current stop then
    let inner ← make fun h => h.newScope scope
    let v ← coerce (.long current) ty
    modifyHeap fun h => h.declare inner name ty v
    return some (inner, Range.next? direction current)
  else return none

/-- Begin a round of a loop over items: in a new scope that binds the item. -/
def beginEach (name : String) (scope : Nat) (source : EachSource) :
    Exec (Option (Nat × Option EachSource)) := do
  match ← nextItem source with
  | none => return none
  | some (v, rest) =>
    let inner ← make fun h =>
      let (inner, h) := h.newScope scope
      (inner, h.declare inner name .any v)
    return some (inner, some rest)

/-- Enter nodes again on the way back to a `yield`. -/
def reenter : Nat → Exec Unit
  | 0 => pure ()
  | k + 1 => do
    reenter k
    enterNode

end Exec

/-! ## Statements -/

namespace Straight

variable {σ : Type}

section
variable (ev : Evaluator) (run : Node → Nat → Straight Value)

/-- Run statements one after the other; gives the value of the last one. -/
def statements (scope : Nat) : Value → List Node → Straight Value
  | last, [] => return last
  | _, e :: es => do
    let v ← run e scope
    statements scope v es

/-- Run a branch: the body of the arm that is chosen, in a scope of its own. -/
def branch (arms : List (Node × Node)) (otherwise : Option Node) (scope : Nat) : Straight Value := do
  let arm ← lift ev (Exec.chooseArm scope 0 arms)
  match Exec.armBody arms otherwise arm with
  | none => return .null
  | some e =>
    let inner ← lift ev (Exec.make fun h => h.newScope scope)
    run e inner

/-- Go on with what is left of a loop, if anything is. -/
def leftOver : Option σ → Straight (Value ⊕ σ)
  | some a => return .inr a
  | none => return .inl .null

/-- How a loop goes on after the body of a round. -/
def afterBody (next : Option σ) : Option Value → Straight (Value ⊕ σ)
  | some v => return .inl v
  | none => leftOver next

/-- Run the body of a round, in the scope in which the round begins. -/
def inRound (body : Node) : Option (Nat × Option σ) → Straight (Value ⊕ σ)
  | none => return .inl .null
  | some p => (run body p.1).andThen fun o => onValue (afterBody p.2) (Exec.roundEnd o)

/-- Run a round of a loop whose rounds begin in a certain way. -/
def round (begin : σ → Exec (Option (Nat × Option σ))) (body : Node) (a : σ) : Straight (Value ⊕ σ) := do
  inRound run body (← lift ev (begin a))

/-- Run a loop. -/
def rounds (begin : σ → Exec (Option (Nat × Option σ))) (body : Node) (a : σ) : Straight Value :=
  loop ev.fuel (round ev run begin body) ev.fuel a

/-- Run a handler in a scope that binds the exception. -/
def handler (name : String) (body : Node) (scope : Nat) (exception : Value) : Straight Value := do
  let inner ← lift ev (Exec.make fun h =>
    let (inner, h) := h.newScope scope
    (inner, h.declare inner name .any exception))
  run body inner

/-- Run a body with a handler for exceptions and for the failures that may be caught. -/
def tryCatch (body : Node) (name : String) (catcher : Node) (scope : Nat) : Straight Value :=
  handle (run body scope) fun
    | .throwValue v => some (handler ev run name catcher scope v)
    | .error e =>
      if e.isCatchable then
        some do handler ev run name catcher scope (← lift ev (Exec.exceptionFrom e))
      else none
    | _ => none

/-- Run a `yield` around which there are `depth` nodes. -/
def yieldWith (depth : Nat) (value : Option Node) (scope : Nat) : Straight Value := do
  let v ← lift ev (Exec.evalOptional value scope)
  emit v
  lift ev (Exec.reenter (depth + 1))
  return .null

/-- What a node does when it is run straight through, in terms of a way to run the statements in it. -/
def dispatch (depth : Nat) (node : Node) (scope : Nat) : Straight Value :=
  match node with
  | .block es => statements run scope .null es
  | .branch arms otherwise => branch ev run arms otherwise scope
  | .whileLoop cond body => rounds ev run (Exec.beginWhile cond scope) body ()
  | .forRange x ty a b direction body => do
    let first ← lift ev (Exec.eval a scope)
    let last ← lift ev (Exec.eval b scope)
    let first ← lift ev (Exec.rangeBound first)
    let last ← lift ev (Exec.rangeBound last)
    rounds ev run (Exec.beginRange x ty direction last scope) body first
  | .forEach x e body => do
    let v ← lift ev (Exec.eval e scope)
    let source ← lift ev (Exec.eachSource v)
    rounds ev run (Exec.beginEach x scope) body source
  | .tryCatch body x catcher => tryCatch ev run body x catcher scope
  | .yieldWith value => yieldWith ev depth value scope
  | e => lift ev (Exec.dispatch e scope)

end

/-- Run a node, around which there are `depth` nodes of the same body, straight through. -/
def node : Nat → Nat → Node → Nat → Straight Value
  | 0, _, _, _ => give (.halted .outOfFuel)
  | n + 1, depth, e, scope => do
    lift (evaluator n) Exec.enterNode
    dispatch (evaluator n) (node n (depth + 1)) depth e scope

end Straight
end TreeScript
