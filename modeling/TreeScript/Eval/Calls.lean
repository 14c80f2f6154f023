import TreeScript.Eval.Hooks
import TreeScript.Heap.Identity

/-!
# Calls

How functions, callables, constructors and coroutines run.  A function of the program runs in a scope
that the pool hands out; a call written as a result (`return f(..)`) leaves the scope of the caller
before the callee begins.  A call site resolves its function once in a session.  Every call is a live
call of a name while it runs, and no jump leaves it, but for those that native code raises.
-/

namespace TreeScript
namespace Exec

/-! ## Objects -/

/-- Evaluate the default of a field, or take the default value of its type. -/
def fieldDefault (f : FieldDecl Node) (scope : Nat) : Exec Value :=
  match f.default? with
  | some e => settle (eval e scope)
  | none => make fun h => h.defaultValue f.type

/-- Give the fields of an object their defaults, in order. -/
def initFields (i scope : Nat) : List (FieldDecl Node) → Exec Unit
  | [] => pure ()
  | f :: fs => do
    let v ← coerce (← fieldDefault f scope) f.type
    modifyHeap fun h => h.declare (h.object i).fields f.name f.type v
    initFields i scope fs

/-- Make an instance of a class: first its fields, then the body of the constructor. -/
def instantiate (cls : ClassDef) (ctor : Option (ConstructorDecl Node)) (args : List Value) :
    Exec Value := do
  let root ← session (·.root)
  let i ← make fun h => h.newObject cls root
  let scope ← methodScope i
  let _ ← asBarrier cls.name do
    initFields i scope cls.fields
    if let some d := ctor then
      entering d.params args
      bindParams scope d.params args
      let _ ← settle (eval d.body scope)
    return .null
  return .object i

/-! ## Coroutines -/

/-- What is left of running a coroutine: if it yields it is suspended, else it is finished. -/
def untilYield (i : Nat) (x : Exec Value) : Exec Value := fun ev s =>
  match x ev s with
  | (.signal (.yieldValue v frames), s) =>
    (.value v, { s with heap := s.heap.setCoroutine i ((s.heap.coroutine i).suspend frames) })
  | (o, s) =>
    (settled o, { s with heap := s.heap.setCoroutine i (s.heap.coroutine i).finish })

/-- Run a coroutine up to its next `yield` or to its end; gives what it yields or its result, or null
if it is finished already. -/
def resumeCoroutine (i : Nat) : Exec Value := do
  asCall (← heap fun h => (h.coroutine i).name) do
    let c ← heap fun h => h.coroutine i
    match ← ofExcept c.begin? with
    | none => return .null
    | some (frames, running) =>
      modifyHeap fun h => h.setCoroutine i running
      entering c.params c.args
      untilYield i (withResume frames (withFrame .barrier (eval c.body c.scope)))

/-! ## Functions of the program -/

/-- The scope for a call: one that the function has idle, emptied, or a new one.  A function that is
called as a value has none idle. -/
def acquireScope (function : Option Nat) : Exec Nat := do
  let root ← session (·.root)
  match function with
  | none => make fun h => h.newScope root
  | some function =>
    match ← session fun s => s.pool.acquire? function with
    | some (scope, pool) =>
      modifySession fun s => { s with pool := pool, meter := s.meter.countPool true }
      modifyHeap fun h => h.clear scope
      return scope
    | none =>
      meter (Meter.countPool · false)
      make fun h => h.newScope root

/-- Run the body of a function of the program. -/
def runScript (function : Option Nat) (params : List Param) (body : Node) (args : List Value) :
    Exec Value := do
  let scope ← acquireScope function
  settle <| withFrame (.pooled function scope false false) do
    entering params args
    bindParams scope params args
    eval body scope

/-! ## The core library -/

/-- The texts of arguments, separated by blanks. -/
def joinTexts (args : List Value) : Exec String := do
  return " ".intercalate (← args.mapM stringify)

/-- A copy of a value; an object copies itself by its method `clone`. -/
def cloneValue (v : Value) : Exec Value := do
  match ← heap fun h => h.shallowCopy? v with
  | some (w, h) =>
    modifyHeap fun _ => h
    return w
  | none =>
    match v with
    | .object i => callNamedMethod i "clone" []
    | _ => return v

/-- The entries that keys and values in turn make up. -/
def pairUp : List Value → List (Value × Value)
  | k :: v :: rest => (k, v) :: pairUp rest
  | _ => []

/-- Fail because something else is where a coroutine should be. -/
def noCoroutine (v : Value) : Exec Value := do
  fail (.typeMismatch "coroutine" (← heap fun h => h.typeName v))

/-- What a function of the core library does with its arguments; `accepting` is the call that
`consumer.accept` makes. -/
def runCore (c : CoreFunction) (args : List Value) (accepting : Exec Value) : Exec Value :=
  let arg := args.headD .null
  match c with
  | .print => do
    let text ← joinTexts args
    modifySession fun s => { s with output := s.output.printLine text }
    return .null
  | .printn => do
    let text ← joinTexts args
    modifySession fun s => { s with output := s.output.print text }
    return .null
  | .typeOf => heap fun h => .str (h.typeName arg)
  | .isNull => pure (.bool arg.isNull)
  | .convert _ ty => castValue arg ty
  | .clone => cloneValue arg
  | .exit => do
    modifySession fun s => { s with cancellation := s.cancellation.mark true }
    return .null
  | .identity => heap fun h => .long (h.identity arg).toInt64
  | .hexIdentity => heap fun h => .str (String.ofList (Quoted.hex (h.identity arg).toNat))
  | .accept => accepting
  | .resume =>
    match arg with
    | .coroutine i => resumeCoroutine i
    | _ => noCoroutine arg
  | .isFinished =>
    match arg with
    | .coroutine i => heap fun h => .bool (h.coroutine i).isFinished
    | _ => noCoroutine arg
  | .listOf => newList args
  | .mapOf =>
    if args.length % 2 ≠ 0 then
      fail (.native ("map.of expects key/value pairs, got " ++ toString args.length ++ " arguments"))
    else make fun h => h.newMap (.ofList (pairUp args))

/-! ## Invocation -/

/-- Run a function of a routine; native code works in the scope of the caller. -/
def runRoutine (function : Option Nat) (r : Routine) (args : List Value) (caller : Nat) :
    Exec Value :=
  match r.body with
  | .native action => asNative do runNative action caller (← convertArgs r.params args)
  | .script body => runScript function r.params body args
  | .coroutine body => do
    let args ← convertArgs r.params args
    newCoroutine r.name r.params body args (← session (·.root))

/-- Call a function.  `function` is its catalog slot if the call came through the catalog: only then
does it run in a pooled scope. -/
def invokeWith (accepting : Exec Value) (function : Option Nat) (f : Function) (args : List Value)
    (caller : Nat) : Exec Value := do
  meter Meter.countFunctionCall
  asCall f.name <| withResume [] <|
    match f with
    | .routine r => runRoutine function r args caller
    | .core c => asNative do runCore c (← convertArgs c.parameters.list args) accepting
    | .constructor cls decl? => instantiate cls decl? args

/-- The failure of `consumer.accept` when its first argument cannot be called. -/
def invalidConsumer : Exec Value := fail (.native "Invalid consumer")

/-- Call a callable from a scope. -/
def callCallable (caller : Nat) (args : List Value) (callee : Nat) : Exec Value := do
  match ← heap fun h => h.callable callee with
  | .function f =>
    if f.arity.accepts args.length then
      invokeWith
        (match args with
          | .callable next :: rest => callCallable caller rest next
          | _ => invalidConsumer)
        none f args caller
    else fail (.arityMismatch f.name f.params.length args.length)
  | .lambda params body scope => do
    meter Meter.countFunctionCall
    let inner ← make fun h => h.newScope scope
    asBarrier "<lambda>" do
      if params.length ≠ args.length then
        fail (.arityMismatch "lambda" params.length args.length)
      else
        entering params args
        bindParams inner params args
        eval body inner
  | .deferred expr scope => asBarrier "<consumer>" (eval expr scope)

/-- What `consumer.accept` does with its arguments. -/
def accept (caller : Nat) : List Value → Exec Value
  | .callable callee :: args => callCallable caller args callee
  | _ => invalidConsumer

/-- Call a function. -/
def invoke (function : Option Nat) (f : Function) (args : List Value) (caller : Nat) : Exec Value :=
  invokeWith (accept caller args) function f args caller

/-! ## Call sites -/

/-- The function of a call site: what the site remembers, else what the catalog finds, which the site
remembers from then on. -/
def resolveCall (site : Nat) (name : String) (argc : Nat) : Exec (Nat × Function) := do
  let remembered ← gets fun s => do
    let slot ← s.sites.get? site s.session.id
    return (slot, ← s.session.catalog.get? slot)
  match remembered with
  | some callee => return callee
  | none =>
    match ← session fun s => s.catalog.callee? name argc with
    | some (slot, f) =>
      fun _ s => (.value (slot, f), { s with sites := s.sites.set site s.session.id slot })
    | none => fail (.undefinedFunction name argc)

/-- Make a callable. -/
def newCallable (c : Callable) : Exec Value := make fun h => h.newCallable c

/-- Make a callable that may use the scope of the innermost frame after the call has ended. -/
def capture (c : Callable) : Exec Value := do
  modifySession Session.retainFrame
  newCallable c

/-- Evaluate arguments from left to right; parameters of type `consumer` receive theirs unevaluated. -/
def evalArgs (scope : Nat) : List Param → List Node → Exec (List Value)
  | _, [] => pure []
  | params, e :: es => do
    let v ← if Parameters.isDeferredAt params 0 then capture (.deferred e scope) else eval e scope
    return v :: (← evalArgs scope params.tail es)

/-- Evaluate a call.  As a result of the caller (`tail`), a call of a function of the program leaves
the caller's scope before it begins. -/
def evalCall (site : Nat) (name : String) (args : List Node) (scope : Nat) (tail : Bool) :
    Exec Value := do
  let (slot, f) ← resolveCall site name args.length
  let vs ← evalArgs scope f.params args
  if tail && f.isScript then modifySession Session.releaseFrame
  invoke (some slot) f vs scope

/-- Evaluate a method call. -/
def evalMethodCall (target : Node) (method : String) (args : List Node) (scope : Nat) :
    Exec Value := do
  match ← eval target scope with
  | .object i =>
    let m ← findMethod i method args.length
    let vs ← evalArgs scope m.params args
    callMethod i m vs
  | v => fail (.undefinedMethod method (← heap fun h => h.typeName v))

end Exec
end TreeScript
