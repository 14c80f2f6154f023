import TreeScript.Eval.Node

/-!
# Hosts

A host runs any number of sessions over one heap.  Trees that it evaluates are numbered first, so that
each call site has a memory cell of its own, and may then be evaluated in several sessions.

At the top level, the jumps that leave an evaluation settle: return, break and yield give their value,
continue gives null, and an exception of the program becomes an error with its message.
-/

namespace TreeScript

/-! ## Results at the top level -/

namespace Exec

/-- The message of an exception: the text of its field `message`, or its label. -/
def exceptionText (h : Heap) (v : Value) : Checked String :=
  match v with
  | .object i =>
    match h.lookupLocal (h.object i).fields "message" with
    | some slot => h.render (h.valueAt slot)
    | none => .ok (h.objectLabel i)
  | v => h.render v

/-- Let no signal but an error leave an evaluation. -/
def settleTop (x : Exec Value) : Exec Value :=
  handle (settle x) fun
    | .throwValue v =>
      some do fail (.uncaughtException (← ofChecked (← heap fun h => exceptionText h v)))
    | _ => none

/-- Evaluate a node in a scope as a top-level evaluation. -/
def evaluateIn (node : Node) (scope : Nat) : Exec Value := do
  modifySession fun s => { s with meter := s.meter.reset, resume := [] }
  settleTop (eval node scope)

/-- Evaluate a node in the scope of the global variables as a top-level evaluation. -/
def evaluate (node : Node) : Exec Value := do evaluateIn node (← session (·.root))

/-- Call a function of the catalog by name as a top-level evaluation. -/
def callFunction (name : String) (args : List Value) : Exec Value := do
  match ← session fun s => s.catalog.callee? name args.length with
  | none => fail (.undefinedFunction name args.length)
  | some (slot, f) =>
    meter Meter.reset
    let root ← session (·.root)
    settleTop (invoke (some slot) f args root)

end Exec

/-! ## New sessions -/

/-- The declaration of the class of exceptions: a message, given to the constructor. -/
def exceptionDecl : ClassDecl Node where
  name := Exec.exceptionClass
  superclasses := []
  fields := [⟨"message", .string, none⟩]
  methods := []
  constructors := [⟨[⟨"msg", .string⟩], .assign "message" (.var "msg")⟩]

/-- The method that gives the message of an exception. -/
def getMessage : Routine := ⟨"getMessage", .fixed [], .string, .native .exceptionMessage⟩

/-- What a new session is made from. -/
structure Settings where
  mode : EvalMode
  output : Output
  profiling : Bool
  /-- Whether the session starts with the core library. -/
  library : Bool
  /-- How many idle scopes a function of the program may keep. -/
  poolCapacity : Nat := 64

namespace Session

/-- A session without anything in it. -/
def blank (id root : Nat) (settings : Settings) : Session where
  id := id
  root := root
  catalog := .empty
  classes := .empty
  pool := .empty settings.poolCapacity
  cancellation := .unmarked
  parser? := none
  mode := settings.mode
  meter :=
    if settings.profiling then (Meter.ofMode settings.mode).withCounters
    else Meter.ofMode settings.mode
  calls := .empty settings.mode.depthLimit
  frames := []
  resume := []
  output := settings.output

/-- Add the class of exceptions. -/
def addExceptionClass (s : Session) : Session :=
  match ClassDef.build exceptionDecl fun _ => none with
  | .ok cls =>
    match s.addClass (cls.withMethod getMessage) with
    | .ok s => s
    | .error _ => s
  | .error _ => s

/-- Add the core library. -/
def addCoreLibrary (s : Session) : Session :=
  CoreFunction.all.foldl (fun s c => s.addFunction (.core c)) s

/-- A new session: with the class of exceptions, and the core library if it is wanted. -/
def new (id root : Nat) (settings : Settings) : Session :=
  let s := (blank id root settings).addExceptionClass
  if settings.library then s.addCoreLibrary else s

end Session

/-! ## Hosts -/

/-- Sessions over one heap. -/
structure Host where
  heap : Heap
  sites : CallSites
  sessions : Array Session

namespace Host

/-- A host without sessions. -/
def empty : Host := ⟨.empty, .empty, #[]⟩

/-- Start a session, numbered from one. -/
def start (host : Host) (settings : Settings) : Host :=
  let (root, h) := host.heap.newRoot
  ⟨h, host.sites, host.sessions.push (.new (host.sessions.size + 1) root settings)⟩

/-- Give the call sites of a tree memory cells of their own. -/
def number (host : Host) (e : Node) : Node × Host :=
  let (e, next) := e.numbered host.sites.next
  (e, { host with sites := host.sites.reserve next })

/-- Give the call sites of a class declaration memory cells of their own. -/
def numberClass (host : Host) (d : ClassDecl Node) : ClassDecl Node × Host :=
  let (d, next) := d.numbered host.sites.next
  (d, { host with sites := host.sites.reserve next })

/-- Run an evaluation in a session, with a bound. -/
def run {α : Type} (host : Host) (k : Nat) (fuel : Nat) (x : Exec α) : Outcome α × Host :=
  match host.sessions[k]? with
  | none => (.halted .outOfFuel, host)
  | some session =>
    let ⟨h, sites, sessions⟩ := host
    match x.run fuel ⟨h, sites, [], session⟩ with
    | (o, ⟨h, sites, _, session⟩) => (o, ⟨h, sites, sessions.setIfInBounds k session⟩)

end Host
end TreeScript
