/-!
# Cancellation

A session that is marked evaluates no further node.  Marking it by force also asks the host to end it.
-/

namespace TreeScript

/-- The marks of a session. -/
structure Cancellation where
  marked : Bool
  forced : Bool
  deriving DecidableEq, Repr, Inhabited

namespace Cancellation

/-- No mark. -/
def unmarked : Cancellation := ⟨false, false⟩

/-- Mark, by force or not; an earlier mark by force stays. -/
def mark (c : Cancellation) (force : Bool) : Cancellation := ⟨true, c.forced || force⟩

/-- The text of the marks in a diagnostic. -/
def debugText (c : Cancellation) : String :=
  "CancellationHandle \x7b marked: " ++ toString c.marked ++ ", forced: " ++ toString c.forced ++
    " \x7d"

end Cancellation
end TreeScript
