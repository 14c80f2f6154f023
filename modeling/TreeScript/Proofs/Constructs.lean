import TreeScript.Proofs.Evaluations

/-
# Constructs, in parts

Most expressions evaluate one of their parts before they do anything else: `Node.first?` is this part,
and `Exec.afterFirst` says what they do with its value.

Making an instance of a class makes an object, and then fills it: `Exec.construct` is what happens between
the two ends.  A call looks up a callable, or resolves its site, before it does anything with what it found;
the equations here take the two apart.

Each loop runs its rounds on a bound.  A round either goes on in a scope that it has already, or
begins: with a condition, a number or an item, and a new scope.  The equations here take the beginning
of a round and the round itself apart.

A handler may be made to begin only when something else has been done first: `evalTryWith` is a try
with such a guard, and `evalTry` the one whose guard does nothing.
-/

namespace TreeScript

/-- What the catalog finds for a call is in its slot. -/
theorem Catalog.get?_of_callee? {c : Catalog} {name : String} {argc slot : Nat} {f : Function}
    (h : c.callee? name argc = some (slot, f)) : c.get? slot = some f := by
  obtain ⟨k, _, hk⟩ := Option.bind_eq_some_iff.mp h
  obtain ⟨g, hg, hkg⟩ := Option.bind_eq_some_iff.mp hk
  cases hkg
  exact hg

/-- A class is added if its name is not taken, and then the functions that it is called by are added. -/
theorem Session.addClass_eq_ok {s t : Session} {c : ClassDef} : s.addClass c = .ok t ↔
    s.classes.contains c.name = false ∧
      t = (constructorsOf c).foldl addFunction { s with classes := s.classes.insert c.name c } := by
  unfold addClass
  split
  · rename_i htaken
    simp [htaken]
  · rename_i hnew
    simp [Bool.eq_false_iff.mpr hnew, eq_comm]

/-! ## First parts -/

/-- The part that an expression or a jump evaluates before it does anything else.  A call that is
returned is not evaluated as a part. -/
def Node.first? : Node → Option Node
  | listLiteral (e :: _) | mapLiteral ((e, _) :: _) => some e
  | declare _ _ e | breakWith e => e
  | assign _ e | constObject _ _ e | unary _ e | field e _ | throwValue e => some e
  | binary _ e _ | ternary e _ _ | index e _ | indexAssign e _ _ | fieldAssign e _ _
  | methodCall e _ _ => some e
  | returnWith (some (call ..)) => none
  | returnWith e => e
  | _ => none

namespace Exec

/-- What a binary operator does with the value of its left operand. -/
def afterLeft (op : BinaryOp) (right : Node) (scope : Nat) (v : Value) : Exec Value :=
  if op.isShortCircuit then do
    let a ← toBool v
    if a == (op == .or) then return .bool a
    else return .bool (← toBool (← eval right scope))
  else do applyBinary op v (← eval right scope)

theorem evalBinary_eq (op : BinaryOp) (left right : Node) (scope : Nat) :
    evalBinary op left right scope = eval left scope >>= afterLeft op right scope := by
  unfold evalBinary afterLeft
  cases op.isShortCircuit <;> rfl

/-- What an expression or a jump does with the value of its first part. -/
def afterFirst (node : Node) (scope : Nat) (v : Value) : Exec Value :=
  match node with
  | .listLiteral (_ :: es) => do newList (v :: (← evalAll scope es))
  | .mapLiteral ((_, e) :: es) => do
    let w ← eval e scope
    let m ← evalEntries scope (OrderedMap.empty.insert v w) es
    make fun h => h.newMap m
  | .declare ty x _ => do
    let v ← coerce v ty
    modifyHeap fun h => h.declare scope x ty v
    return v
  | .assign x _ => do
    match ← heap fun h => h.lookup scope x with
    | some slot => store slot x v
    | none => fail (.undefinedVariable x)
  | .constObject cls x _ => do
    let v ← checkInstance v cls
    modifyHeap fun h => h.declareSlot scope x ⟨.object cls, v, false⟩
    return v
  | .binary op _ right => afterLeft op right scope v
  | .unary op _ => applyUnary op v
  | .ternary _ yes no => do
    if ← toBool v then eval yes scope else eval no scope
  | .index _ keys => do indexGet v (← evalAll scope keys)
  | .indexAssign _ keys new => do
    let ks ← evalAll scope keys
    indexSet v ks (← eval new scope)
  | .field _ x => do
    let slot ← fieldSlot v x
    heap fun h => h.valueAt slot
  | .fieldAssign _ x new => do
    let slot ← fieldSlot v x
    store slot x (← eval new scope)
  | .methodCall _ method args => do
    match v with
    | .object i =>
      let m ← findMethod i method args.length
      let vs ← evalArgs scope m.params args
      callMethod i m vs
    | v => fail (.undefinedMethod method (← heap fun h => h.typeName v))
  | .breakWith _ => raise (.breakLoop v)
  | .returnWith _ => raise (.returnValue v)
  | .throwValue _ => do
    if ← heap fun h => h.isInstance exceptionClass v then raise (.throwValue v)
    else fail .invalidThrow
  | _ => pure v

/-- A node with a first part evaluates it, and then does something with its value. -/
theorem dispatch_of_first {e p : Node} (h : e.first? = some p) (scope : Nat) :
    dispatch e scope = eval p scope >>= afterFirst e scope := by
  cases e with
  | listLiteral es =>
    cases es with
    | nil => cases h
    | cons e es =>
      cases h
      show (evalAll scope (p :: es) >>= newList) = _
      rw [evalAll, bind_assoc]
      refine congrArg (eval p scope >>= ·) (funext fun v => ?_)
      rw [bind_assoc]
      exact congrArg (evalAll scope es >>= ·) (funext fun vs => pure_bind _ _)
  | mapLiteral es =>
    rcases es with _ | ⟨⟨k, e⟩, es⟩
    · cases h
    · cases h
      show (evalEntries scope .empty ((p, e) :: es) >>= fun m => make fun h => h.newMap m) = _
      rw [evalEntries, bind_assoc]
      refine congrArg (eval p scope >>= ·) (funext fun v => ?_)
      exact bind_assoc _ _ _
  | declare ty x value =>
    cases h
    rfl
  | binary op l r =>
    cases h
    exact evalBinary_eq op p r scope
  | breakWith value =>
    cases h
    rfl
  | returnWith value =>
    rcases value with _ | e
    · cases h
    · cases e <;> cases h <;> rfl
  | assign _ _ | constObject _ _ _ | unary _ _ | ternary _ _ _ | index _ _ | indexAssign _ _ _
  | field _ _ | fieldAssign _ _ _ | methodCall _ _ _ | throwValue _ =>
    cases h
    rfl
  | _ => cases h

/-! ## Objects -/

/-- What making an instance of a class does with the object, in a scope inside the scope of its fields. -/
def construct (i scope : Nat) (cls : ClassDef) (ctor : Option (ConstructorDecl Node)) (args : List Value) :
    Exec Value := do
  initFields i scope cls.fields
  if let some d := ctor then
    entering d.params args
    bindParams scope d.params args
    let _ ← settle (eval d.body scope)
  return .null

theorem instantiate_eq (cls : ClassDef) (ctor : Option (ConstructorDecl Node)) (args : List Value) :
    instantiate cls ctor args = (do
      let root ← session (·.root)
      let i ← make fun h => h.newObject cls root
      let scope ← methodScope i
      let _ ← asBarrier cls.name (construct i scope cls ctor args)
      return .object i) := rfl

/-! ## Callables -/

/-- What calling a callable does; `accepting` is the call that `consumer.accept` makes. -/
def applyCallable (accepting : Exec Value) (caller : Nat) (args : List Value) :
    Callable → Exec Value
  | .function f =>
    if f.arity.accepts args.length then invokeWith accepting none f args caller
    else fail (.arityMismatch f.name f.params.length args.length)
  | .lambda params body scope => do
    meter Meter.countFunctionCall
    let inner ← make fun h => h.newScope scope
    asBarrier "<lambda>" do
      if params.length ≠ args.length then
        fail (.arityMismatch "lambda" params.length args.length)
      else
        entering params args
        bindParams inner params args
        eval body inner
  | .deferred expr scope => asBarrier "<consumer>" (eval expr scope)

theorem callCallable_eq (caller : Nat) (args : List Value) (callee : Nat) :
    callCallable caller args callee =
      heap (fun h => h.callable callee) >>= applyCallable (accept caller args) caller args := by
  rw [callCallable.eq_def]
  refine congrArg (heap (fun h => h.callable callee) >>= ·) (funext fun k => ?_)
  cases k with
  | function f =>
    cases args with
    | nil => rfl
    | cons v vs => cases v <;> rfl
  | lambda params body scope => rfl
  | deferred expr scope => rfl

/-! ## Coroutines -/

/-- Begin to run a coroutine: gives it with its way back, unless it is finished. -/
def beginCoroutine (i : Nat) : Exec (Option (Coroutine × List ResumeFrame)) := do
  let c ← heap fun h => h.coroutine i
  match ← ofExcept c.begin? with
  | none => return none
  | some (frames, running) =>
    modifyHeap fun h => h.setCoroutine i running
    return some (c, frames)

/-- Run a coroutine that has begun. -/
def runCoroutine (i : Nat) : Option (Coroutine × List ResumeFrame) → Exec Value
  | none => return .null
  | some (c, frames) => do
    entering c.params c.args
    untilYield i (withResume frames (withFrame .barrier (eval c.body c.scope)))

theorem resumeCoroutine_eq (i : Nat) :
    resumeCoroutine i =
      heap (fun h => (h.coroutine i).name) >>= fun name =>
        asCall name (beginCoroutine i >>= runCoroutine i) := by
  unfold resumeCoroutine beginCoroutine
  refine congrArg (heap _ >>= ·) (funext fun name => congrArg (asCall name) ?_)
  rw [bind_assoc]
  refine congrArg (heap _ >>= ·) (funext fun c => ?_)
  rw [bind_assoc]
  refine congrArg (ofExcept _ >>= ·) (funext fun begun => ?_)
  cases begun <;> rfl

theorem beginCoroutine_apply (i : Nat) (ev : Evaluator) (s : State) :
    beginCoroutine i ev s =
      match (s.heap.coroutine i).begin? with
      | .error e => (.signal (.error e), s)
      | .ok none => (.value none, s)
      | .ok (some (frames, running)) =>
        (.value (some (s.heap.coroutine i, frames)), s.withHeap (s.heap.setCoroutine i running)) := by
  unfold beginCoroutine
  simp only [bind_apply, heap]
  rcases (s.heap.coroutine i).begin? with e | _ | ⟨frames, running⟩ <;> rfl

theorem resumeCoroutine_apply (i : Nat) (ev : Evaluator) (s : State) :
    resumeCoroutine i ev s =
      match s.session.calls.push (s.heap.coroutine i).name with
      | .error e => (.signal (.error (s.session.calls.attach e)), s)
      | .ok calls => endCall ((beginCoroutine i >>= runCoroutine i) ev (s.withCalls calls)) := by
  rw [resumeCoroutine_eq, bind_apply]
  exact asCall_apply _ _ ev s

section
variable {i : Nat} {s : State}

/-- A resume that is one call too many changes nothing. -/
theorem resumeCoroutine_refused (ev : Evaluator) {e : EvalError}
    (hpush : s.session.calls.push (s.heap.coroutine i).name = .error e) :
    resumeCoroutine i ev s = (.signal (.error (s.session.calls.attach e)), s) := by
  rw [resumeCoroutine_apply, hpush]

variable {calls : CallStack} (hpush : s.session.calls.push (s.heap.coroutine i).name = .ok calls)
include hpush

/-- A resume that fails to begin changes nothing. -/
theorem resumeCoroutine_failed (ev : Evaluator) {e : EvalError}
    (hbegin : (s.heap.coroutine i).begin? = .error e) :
    resumeCoroutine i ev s = (.signal (.error (calls.attach e)), s) := by
  have hbegin' : ((s.withCalls calls).heap.coroutine i).begin? = .error e := hbegin
  rw [resumeCoroutine_apply, hpush]
  dsimp only
  rw [bind_apply, beginCoroutine_apply, hbegin']
  exact endCall_withCalls _ hpush

/-- A resume that has nothing left to begin gives null and changes nothing. -/
theorem resumeCoroutine_done (ev : Evaluator) (hbegin : (s.heap.coroutine i).begin? = .ok none) :
    resumeCoroutine i ev s = (.value .null, s) := by
  have hbegin' : ((s.withCalls calls).heap.coroutine i).begin? = .ok none := hbegin
  rw [resumeCoroutine_apply, hpush]
  dsimp only
  rw [bind_apply, beginCoroutine_apply, hbegin']
  exact endCall_withCalls (.value Value.null) hpush

/-- A resume that begins runs the body, and leaves the coroutine as the body has ended. -/
theorem resumeCoroutine_begun (n : Nat) (evaluate : Node → Nat → State → Outcome Value × State)
    {frames : List ResumeFrame} {running : Coroutine}
    (hbegin : (s.heap.coroutine i).begin? = .ok (some (frames, running))) :
    resumeCoroutine i (.untraced n evaluate) s =
      endCall (leaveCoroutine i s.session.resume
        (evaluate (s.heap.coroutine i).body (s.heap.coroutine i).scope
          (enterBody frames ((s.withCalls calls).withHeap (s.heap.setCoroutine i running))))) := by
  have hbegin' : ((s.withCalls calls).heap.coroutine i).begin? = .ok (some (frames, running)) := hbegin
  rw [resumeCoroutine_apply, hpush]
  dsimp only
  rw [bind_apply, beginCoroutine_apply, hbegin']
  exact congrArg endCall (untilYield_apply i _ _ _ _)

end

/-! ## Call sites -/

/-- The function that a call site remembers in the session. -/
def remembered (site : Nat) (s : State) : Option (Nat × Function) :=
  (s.sites.get? site s.session.id).bind fun slot =>
    (s.session.catalog.get? slot).map fun f => (slot, f)

theorem resolveCall_apply (site : Nat) (name : String) (argc : Nat) (ev : Evaluator) (s : State) :
    resolveCall site name argc ev s =
      match remembered site s with
      | some callee => (.value callee, s)
      | none =>
        match s.session.catalog.callee? name argc with
        | some (slot, f) => (.value (slot, f), s.withSites (s.sites.set site s.session.id slot))
        | none => (.signal (.error (.of (.undefinedFunction name argc))), s) := by
  have heq : (do
      let slot ← s.sites.get? site s.session.id
      return (slot, ← s.session.catalog.get? slot)) = remembered site s := by
    unfold remembered
    cases s.sites.get? site s.session.id with
    | none => rfl
    | some slot =>
      show ((s.session.catalog.get? slot).bind fun f => some (slot, f)) =
        (s.session.catalog.get? slot).map fun f => (slot, f)
      cases s.session.catalog.get? slot <;> rfl
  unfold resolveCall
  simp only [bind_apply, gets, heq]
  cases remembered site s with
  | some callee => rfl
  | none =>
    simp only [bind_apply, session]
    rcases s.session.catalog.callee? name argc with _ | ⟨slot, f⟩ <;> rfl

/-- What a call does when its site has been resolved. -/
def applyCallee (slot : Nat) (f : Function) (args : List Node) (scope : Nat) (tail : Bool) :
    Exec Value := do
  let vs ← evalArgs scope f.params args
  if tail && f.isScript then modifySession Session.releaseFrame
  invoke (some slot) f vs scope

theorem evalCall_eq (site : Nat) (name : String) (args : List Node) (scope : Nat) (tail : Bool) :
    evalCall site name args scope tail =
      resolveCall site name args.length >>= fun callee =>
        applyCallee callee.1 callee.2 args scope tail := rfl

/-- Return the value of an evaluation. -/
def returning (x : Exec Value) : Exec Value := do raise (.returnValue (← x))

/-- Returning a call. -/
theorem evalReturn_call (site : Nat) (name : String) (args : List Node) (scope : Nat) :
    evalReturn (some (.call site name args)) scope =
      (do
        enterNode
        let callee ← resolveCall site name args.length
        returning (applyCallee callee.1 callee.2 args scope true)) := by
  simp only [evalReturn, evalCall_eq, returning, bind_assoc]

/-- Go on with a loop after a round, unless the round has ended it. -/
def afterRound (rest : Exec Value) : Option Value → Exec Value
  | some v => pure v
  | none => rest

/-! ## Branches -/

/-- The body of an arm, or of the `else`. -/
def armBody (arms : List (Node × Node)) (otherwise : Option Node) : Option Nat → Option Node
  | some i => arms[i]?.map (·.2)
  | none => otherwise

/-- Evaluate the body of an arm in its scope. -/
def enterArm (arm : Option Nat) (scope : Nat) : Option Node → Exec Value
  | some e => leavingFrame (.inBranch arm scope) (eval e scope)
  | none => fail (.custom "cannot resume coroutine: branch no longer exists")

theorem runArm_eq (arms : List (Node × Node)) (otherwise : Option Node) (arm : Option Nat)
    (scope : Nat) : runArm arms otherwise arm scope = enterArm arm scope (armBody arms otherwise arm) := by
  unfold runArm enterArm
  cases arm <;> rfl

/-! ## While -/

theorem whileRounds_resumed (cond body : Node) (scope fuel inner : Nat) :
    whileRounds cond body scope (fuel + 1) (some inner) =
      runRound (.inWhile inner) body inner >>= afterRound (whileRounds cond body scope fuel none) := by
  rw [whileRounds]
  simp only [pure_bind]
  refine congrArg (runRound (.inWhile inner) body inner >>= ·) (funext fun r => ?_)
  cases r <;> rfl

theorem whileRounds_begin (cond body : Node) (scope fuel : Nat) :
    whileRounds cond body scope (fuel + 1) none =
      (do
        if ← toBool (← eval cond scope) then
          let inner ← make fun h => h.newScope scope
          whileRounds cond body scope (fuel + 1) (some inner)
        else return .null) := by
  simp only [whileRounds_resumed]
  rw [whileRounds]
  refine congrArg (eval cond scope >>= ·) (funext fun v => ?_)
  refine congrArg (toBool v >>= ·) (funext fun b => ?_)
  cases b with
  | false => rfl
  | true =>
    simp only [if_true, bind_map_left]
    refine congrArg ((make fun h => h.newScope scope) >>= ·) (funext fun inner => ?_)
    refine congrArg (runRound (.inWhile inner) body inner >>= ·) (funext fun r => ?_)
    cases r <;> rfl

/-! ## Counted loops -/

section
variable (name : String) (ty : TypeKind) (direction : RangeDirection) (stop : Int64) (body : Node)
variable (scope fuel : Nat) (current : Int64)

/-- The rounds of a counted loop after the one for a number. -/
def rangeRest : Exec Value :=
  match Range.next? direction current with
  | some next => rangeRounds name ty direction stop body scope fuel next none
  | none => return .null

theorem rangeRounds_resumed (inner : Nat) :
    rangeRounds name ty direction stop body scope (fuel + 1) current (some inner) =
      if Range.includes direction current stop then
        runRound (.inRange inner current stop) body inner >>=
          afterRound (rangeRest name ty direction stop body scope fuel current)
      else return .null := by
  rw [rangeRounds]
  split
  · simp only [pure_bind]
    refine congrArg (runRound (.inRange inner current stop) body inner >>= ·) (funext fun r => ?_)
    cases r <;> rfl
  · rfl

theorem rangeRounds_begin :
    rangeRounds name ty direction stop body scope (fuel + 1) current none =
      if Range.includes direction current stop then do
        let inner ← make fun h => h.newScope scope
        let v ← coerce (.long current) ty
        modifyHeap fun h => h.declare inner name ty v
        rangeRounds name ty direction stop body scope (fuel + 1) current (some inner)
      else return .null := by
  simp only [rangeRounds_resumed]
  rw [rangeRounds]
  split
  · simp only [pure_bind]
    refine congrArg ((make fun h => h.newScope scope) >>= ·) (funext fun inner => ?_)
    refine congrArg (coerce (.long current) ty >>= ·) (funext fun v => ?_)
    refine congrArg (modifyHeap _ >>= ·) (funext fun _ => ?_)
    refine congrArg (runRound (.inRange inner current stop) body inner >>= ·) (funext fun r => ?_)
    cases r <;> rfl
  · rfl

end

/-! ## Loops over items -/

section
variable (name : String) (body : Node) (scope fuel : Nat) (source : EachSource)

theorem eachRounds_resumed (inner : Nat) :
    eachRounds name body scope (fuel + 1) source (some inner) =
      runRound (.inEach inner source) body inner >>=
        afterRound (eachRounds name body scope fuel source none) := by
  rw [eachRounds]
  simp only [pure_bind]
  refine congrArg (runRound (.inEach inner source) body inner >>= ·) (funext fun r => ?_)
  cases r <;> rfl

/-- Begin a round with the next item, if there is one. -/
def beginItem : Option (Value × EachSource) → Exec Value
  | none => return .null
  | some (v, rest) => do
    let inner ← make fun h =>
      let (inner, h) := h.newScope scope
      (inner, h.declare inner name .any v)
    eachRounds name body scope (fuel + 1) rest (some inner)

theorem eachRounds_begin :
    eachRounds name body scope (fuel + 1) source none =
      nextItem source >>= beginItem name body scope fuel := by
  rw [eachRounds]
  refine congrArg (nextItem source >>= ·) (funext fun item => ?_)
  cases item with
  | none => rfl
  | some item =>
    obtain ⟨v, rest⟩ := item
    simp only [beginItem, eachRounds_resumed, pure_bind]
    refine congrArg (make _ >>= ·) (funext fun inner => ?_)
    refine congrArg (runRound (.inEach inner rest) body inner >>= ·) (funext fun r => ?_)
    cases r <;> rfl

end

/-! ## Exceptions -/

/-- Throw a value, if it is an exception. -/
def throwing (v : Value) : Exec Value := do
  if ← heap fun h => h.isInstance exceptionClass v then raise (.throwValue v)
  else fail .invalidThrow

theorem evalThrow_eq (value : Node) (scope : Nat) :
    evalThrow value scope = eval value scope >>= throwing := rfl

theorem throwing_apply (v : Value) (ev : Evaluator) (s : State) :
    throwing v ev s =
      (if s.heap.isInstance exceptionClass v then .signal (.throwValue v)
        else .signal (.error (.of .invalidThrow)), s) := by
  unfold throwing
  simp only [bind_apply, heap]
  cases s.heap.isInstance exceptionClass v <;> rfl

/-- The class of exceptions; a failure is raised again where there is none. -/
def classForFailure (e : EvalError) : Exec ClassDef := do
  match ← session fun s => s.classes.find? exceptionClass with
  | some cls => return cls
  | none => raise (.error e)

theorem exceptionFrom_eq (e : EvalError) :
    exceptionFrom e = classForFailure e >>= fun cls =>
      settle (instantiate cls (cls.constructor? 1) [.str e.message]) := by
  unfold exceptionFrom classForFailure
  rw [bind_assoc]
  refine congrArg (session _ >>= ·) (funext fun found => ?_)
  cases found <;> rfl

/-- The class that is found, or the failure. -/
def classOrFailure (e : EvalError) : Option ClassDef → Outcome ClassDef
  | some cls => .value cls
  | none => .signal (.error e)

theorem classForFailure_apply (e : EvalError) (ev : Evaluator) (s : State) :
    classForFailure e ev s = (classOrFailure e (s.session.classes.find? exceptionClass), s) := by
  unfold classForFailure
  simp only [bind_apply, session]
  cases s.session.classes.find? exceptionClass <;> rfl

theorem eq_some_of_classOrFailure {e : EvalError} {found : Option ClassDef} {cls : ClassDef}
    (h : classOrFailure e found = .value cls) : found = some cls := by
  cases found <;> cases h
  rfl

/-- Evaluate a body with a handler that begins after a guard. -/
def runTryWith (guard : Exec Unit) (body : Node) (name : String) (handler : Node) (scope : Nat) :
    Exec Value :=
  handle (leavingFrame (.inTry none) (eval body scope)) fun
    | .throwValue v => some do
      guard
      handleException name handler scope v
    | .error e =>
      if e.isCatchable then
        some do
          guard
          handleException name handler scope (← exceptionFrom e)
      else none
    | _ => none

/-- Evaluate a try whose handler begins after a guard. -/
def evalTryWith (guard : Exec Unit) (body : Node) (name : String) (handler : Node) (scope : Nat) :
    Exec Value := do
  match ← nextFrame with
  | some (.inTry (some inner)) => runHandler handler inner
  | some (.inTry none) | none => runTryWith guard body name handler scope
  | some frame => wrongFrame frame "try"

theorem evalTry_eq : evalTry = evalTryWith (pure ()) := by
  funext body name handler scope
  rfl

end Exec
end TreeScript
