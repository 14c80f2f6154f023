import TreeScript.Error

/-!
# Modes and meters

The mode of a session says how deep calls may nest, how many nodes an evaluation may take, and where
output goes unless the host says otherwise.  A meter counts against the budget of steps, and counts
what happened if it was asked to.
-/

namespace TreeScript

/-! ## Modes -/

/-- What a session is for. -/
inductive EvalMode where
  | interpret
  /-- No evaluation takes more than this many nodes. -/
  | budgeted (steps : Nat)
  | test
  deriving DecidableEq, Repr, Inhabited

namespace EvalMode

/-- Whether output goes straight to the outside unless the host says otherwise. -/
def printsDirectly : EvalMode → Bool
  | interpret => true
  | _ => false

/-- Whether output is kept to be looked at. -/
def capturesOutput : EvalMode → Bool
  | test => true
  | _ => false

/-- How many nodes an evaluation may take. -/
def stepBudget : EvalMode → Option Nat
  | budgeted n => some n
  | _ => none

/-- How many calls may be live. -/
def depthLimit : EvalMode → Option Nat
  | interpret => none
  | budgeted _ => some 256
  | test => some 512

end EvalMode

/-! ## Counters -/

/-- How often things happened in a session. -/
structure Counters where
  nodes : Nat
  functionCalls : Nat
  methodCalls : Nat
  /-- Calls that ran in a scope of the pool. -/
  poolHits : Nat
  /-- Calls that needed a new scope. -/
  poolMisses : Nat
  deriving DecidableEq, Repr, Inhabited

/-- The counters as a text. -/
def Counters.report (c : Counters) : String :=
  "Evaluation profile:\n" ++
  "  Nodes evaluated:       " ++ toString c.nodes ++ "\n" ++
  "  Function calls:        " ++ toString c.functionCalls ++ "\n" ++
  "  Method calls:          " ++ toString c.methodCalls ++ "\n" ++
  "  Pool hits:             " ++ toString c.poolHits ++ "\n" ++
  "  Pool misses:           " ++ toString c.poolMisses

/-! ## Meters -/

/-- The steps taken since the budget was last renewed, and the counters if they are wanted. -/
structure Meter where
  steps : Nat
  budget : Option Nat
  counters : Option Counters
  deriving DecidableEq, Repr, Inhabited

namespace Meter

/-- A meter that has counted nothing. -/
def ofMode (mode : EvalMode) : Meter := ⟨0, mode.stepBudget, none⟩

/-- Begin to count what happens. -/
def withCounters (m : Meter) : Meter := { m with counters := some ⟨0, 0, 0, 0, 0⟩ }

/-- Take one step; gives the meter with that step counted, and whether the budget allows it. -/
def step (m : Meter) : Except EvalError Unit × Meter :=
  match m.budget with
  | none => (.ok (), m)
  | some budget =>
    let m := { m with steps := m.steps + 1 }
    (if budget < m.steps then .error (.of (.stepBudgetExceeded budget)) else .ok (), m)

/-- Renew the budget. -/
def reset (m : Meter) : Meter := { m with steps := 0 }

/-- Change the counters, if there are any. -/
def count (m : Meter) (f : Counters → Counters) : Meter := { m with counters := m.counters.map f }

/-- Count a node. -/
def countNode (m : Meter) : Meter := m.count fun c => { c with nodes := c.nodes + 1 }

/-- Count a call of a function. -/
def countFunctionCall (m : Meter) : Meter :=
  m.count fun c => { c with functionCalls := c.functionCalls + 1 }

/-- Count a call of a method. -/
def countMethodCall (m : Meter) : Meter :=
  m.count fun c => { c with methodCalls := c.methodCalls + 1 }

/-- Count whether the scope of a call came from the pool. -/
def countPool (m : Meter) (hit : Bool) : Meter :=
  m.count fun c =>
    if hit then { c with poolHits := c.poolHits + 1 } else { c with poolMisses := c.poolMisses + 1 }

/-- The counters as a text. -/
def report? (m : Meter) : Option String := m.counters.map Counters.report

end Meter
end TreeScript
