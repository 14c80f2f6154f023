import TreeScript.Proofs.Evaluations
import TreeScript.Session.Host

/-
# Histories of a host

A host starts sessions, prepares trees, evaluates nodes and calls functions in its sessions, and
changes what the sessions know in between.  Each such act is a `Request`, and a history is a list of
them, in which the sessions take turns in any order.

What answers a request is an evaluator for each session, so that two accounts of evaluation can be
compared over the same history.
-/

namespace TreeScript

/-- What is asked of a host. -/
inductive Request where
  | start (settings : Settings)
  /-- Make memory cells for the call sites of trees, up to a number. -/
  | prepare (sites : Nat)
  | evaluate (session : Nat) (node : Node)
  | callFunction (session : Nat) (name : String) (args : List Value)
  | addFunction (session : Nat) (f : Function)
  | removeFunction (session : Nat) (name : String) (arity : Arity)
  | setParser (session : Nat) (parser? : Option ExpressionParser)
  | cancel (session : Nat) (marks : Cancellation)
  | takeOutput (session : Nat)

namespace Host

/-- Run an evaluation in a session with an evaluator. -/
def runWith {α : Type} (host : Host) (k : Nat) (ev : Evaluator) (x : Exec α) : Outcome α × Host :=
  match host.sessions[k]? with
  | none => (.halted .outOfFuel, host)
  | some session =>
    let r := x ev ⟨host.heap, host.sites, [], session⟩
    (r.1, ⟨r.2.heap, r.2.sites, host.sessions.setIfInBounds k r.2.session⟩)

theorem run_eq_runWith {α : Type} (host : Host) (k fuel : Nat) (x : Exec α) :
    host.run k fuel x = host.runWith k (evaluator fuel) x := by
  unfold run runWith
  cases host.sessions[k]? <;> rfl

/-- Change a session from outside. -/
def change (host : Host) (k : Nat) (f : Session → Session) : Host :=
  { host with sessions := host.sessions.modify k f }

/-- Answer a request, with an evaluator for each session. -/
def answer (ev : Nat → Evaluator) (host : Host) : Request → Outcome Value × Host
  | .start settings => (.value .null, host.start settings)
  | .prepare n => (.value .null, { host with sites := host.sites.reserve n })
  | .evaluate k e => host.runWith k (ev k) (Exec.evaluate e)
  | .callFunction k name args => host.runWith k (ev k) (Exec.callFunction name args)
  | .addFunction k f => (.value .null, host.change k fun s => s.addFunction f)
  | .removeFunction k name arity =>
    (.value .null, host.change k fun s => { s with catalog := (s.catalog.remove name arity).2 })
  | .setParser k parser? => (.value .null, host.change k fun s => { s with parser? := parser? })
  | .cancel k marks => (.value .null, host.change k fun s => { s with cancellation := marks })
  | .takeOutput k =>
    (.value (((host.sessions[k]?).map fun s => Value.str s.output.text).getD .null),
      host.change k fun s => { s with output := s.output.clear })

/-- Answer the requests of a history in order. -/
def serve (ev : Nat → Evaluator) (host : Host) : List Request → List (Outcome Value) × Host
  | [] => ([], host)
  | r :: rs =>
    let (o, host) := host.answer ev r
    let (os, host) := host.serve ev rs
    (o :: os, host)

/-- The settings of a session without the core library. -/
def bare : Settings := ⟨.test, .buffer "", false, false, 64⟩

end Host
end TreeScript
