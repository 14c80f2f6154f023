/-!
# What call sites remember

The memory cell of a call site holds the function it resolved to and the session in which it did so.
Another session finds nothing there, and resolving in it replaces what the cell holds.
-/

namespace TreeScript

/-- A function of a session's catalog. -/
structure ResolvedCallee where
  session : Nat
  slot : Nat
  deriving DecidableEq, Repr, Inhabited

/-- The memory cell of a call site. -/
structure CallCell where
  callee : Option ResolvedCallee
  deriving DecidableEq, Repr, Inhabited

namespace CallCell

/-- A cell that holds nothing. -/
def empty : CallCell := ⟨none⟩

/-- The function that the site resolved to in a session, if that was the last to resolve it. -/
def get? (c : CallCell) (session : Nat) : Option Nat :=
  match c.callee with
  | some r => if r.session = session then some r.slot else none
  | none => none

/-- Remember a function of a session. -/
def set (_ : CallCell) (session slot : Nat) : CallCell := ⟨some ⟨session, slot⟩⟩

/-- Whether the cell holds something. -/
def isResolved (c : CallCell) : Bool := c.callee.isSome

/-- The text of a cell in a diagnostic. -/
def debugText (c : CallCell) : String :=
  match c.callee with
  | some r => "CallCache(FunctionId(" ++ toString r.slot ++ ")@" ++ toString r.session ++ ")"
  | none => "CallCache(unresolved)"

end CallCell

/-- The memory cells of all call sites, by their numbers. -/
structure CallSites where
  cells : Array CallCell

namespace CallSites

/-- No cells. -/
def empty : CallSites := ⟨#[]⟩

/-- The number that the next call site gets. -/
def next (s : CallSites) : Nat := s.cells.size

/-- Make empty cells up to a number. -/
def reserve (s : CallSites) (upTo : Nat) : CallSites :=
  ⟨s.cells ++ Array.replicate (upTo - s.cells.size) CallCell.empty⟩

/-- The function that a site resolved to in a session. -/
def get? (s : CallSites) (site session : Nat) : Option Nat :=
  (s.cells.getD site .empty).get? session

/-- Remember the function that a site resolved to in a session. -/
def set (s : CallSites) (site session slot : Nat) : CallSites :=
  ⟨s.cells.modify site fun c => c.set session slot⟩

end CallSites
end TreeScript
