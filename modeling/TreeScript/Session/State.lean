import TreeScript.Heap.Basic
import TreeScript.Session.CallSites
import TreeScript.Session.CallStack
import TreeScript.Session.Cancellation
import TreeScript.Session.Mode
import TreeScript.Session.Output
import TreeScript.Session.Pool

/-!
# Sessions and the state of an evaluation

A session has global variables, functions and classes of its own.  Storage and the memory of call
sites are shared by all sessions of a host, so they stand beside the session in the state on which an
evaluation works.
-/

namespace TreeScript

/-- Who owns the scope that a body runs in. -/
inductive Frame where
  /-- A call of a function of the program, running in `scope`.  If the scope is pooled, `function` is
  the catalog slot it goes back to; `released` says that it has gone back already, `retained` that a
  callable holds it, so that it never goes back. -/
  | pooled (function : Option Nat) (scope : Nat) (released retained : Bool)
  /-- A body that owns no pooled scope. -/
  | barrier
  deriving DecidableEq, Repr, Inhabited

/-- Reads the source of an expression inside a template. -/
abbrev ExpressionParser := String → Except String Node

/-- A session of a host. -/
structure Session where
  /-- The number under which call sites remember the session. -/
  id : Nat
  /-- The scope of the global variables. -/
  root : Nat
  catalog : Catalog
  classes : Table String ClassDef
  pool : Pool
  cancellation : Cancellation
  parser? : Option ExpressionParser
  mode : EvalMode
  meter : Meter
  calls : CallStack
  /-- One frame for each body that is running, innermost first. -/
  frames : List Frame
  /-- The rest of the way back to the `yield` at which the coroutine being resumed stopped. -/
  resume : List ResumeFrame
  output : Output

/-- What an evaluation works on. -/
structure State where
  heap : Heap
  sites : CallSites
  /-- The containers that are being rendered: nothing may write to them. -/
  held : List Value
  session : Session

namespace Session

/-- Add a function to the catalog. -/
def addFunction (s : Session) (f : Function) : Session :=
  { s with catalog := (s.catalog.add f).2 }

/-- The constructors that a class is called by: those it has, or one without parameters. -/
def constructorsOf (c : ClassDef) : List Function :=
  match c.sortedConstructors with
  | [] => [.constructor c none]
  | ctors => ctors.map fun (_, d) => .constructor c (some d)

/-- Add a class with its constructors; a name is given to one class only. -/
def addClass (s : Session) (c : ClassDef) : Except EvalError Session :=
  if s.classes.contains c.name then
    .error (.of (.custom ("Class " ++ c.name ++ " already defined")))
  else
    let s := { s with classes := s.classes.insert c.name c }
    .ok ((constructorsOf c).foldl addFunction s)

/-- Build a class over the classes of the session and add it. -/
def defineClass (s : Session) (d : ClassDecl Node) : Except EvalError Session := do
  s.addClass (← ClassDef.build d s.classes.find?)

end Session
end TreeScript
