import TreeScript.Error

/-!
# Live calls

The call stack names the calls that have begun and not ended.  It bounds how many there may be, and
gives errors their backtraces.
-/

namespace TreeScript

/-- The names of the live calls, most recent first, and how many there may be. -/
structure CallStack where
  names : List String
  limit : Option Nat
  deriving DecidableEq, Repr, Inhabited

namespace CallStack

/-- The stack without calls. -/
def empty (limit : Option Nat) : CallStack := ⟨[], limit⟩

/-- How many calls are live. -/
def depth (s : CallStack) : Nat := s.names.length

/-- Whether no call is live. -/
def isEmpty (s : CallStack) : Bool := s.names.isEmpty

/-- The most recent call. -/
def current? (s : CallStack) : Option String := s.names.head?

/-- Begin a call, unless there are as many as there may be. -/
def push (s : CallStack) (name : String) : Except EvalError CallStack :=
  match s.limit with
  | some limit =>
    if limit ≤ s.depth then .error (.of (.stackOverflow limit))
    else .ok { s with names := name :: s.names }
  | none => .ok { s with names := name :: s.names }

/-- End the most recent call. -/
def pop (s : CallStack) : CallStack := { s with names := s.names.tail }

/-- The stack has a limit and keeps it. -/
structure Within (s : CallStack) (bound : Option Nat) : Prop where
  limit : s.limit = bound
  depth : ∀ n, bound = some n → s.depth ≤ n

variable {s t : CallStack} {name : String} {bound : Option Nat}

theorem push_eq (h : s.push name = .ok t) : t = { s with names := name :: s.names } := by
  unfold push at h
  cases hlimit : s.limit with
  | none =>
    rw [hlimit] at h
    cases h
    rw [← hlimit]
  | some n =>
    rw [hlimit] at h
    dsimp only at h
    split at h <;> cases h
    rw [← hlimit]

/-- A call that ends leaves the stack as it was when it began. -/
theorem pop_of_push (h : s.push name = .ok t) : t.pop = s := by
  rw [push_eq h]
  rfl

theorem within_empty (limit : Option Nat) : (empty limit).Within limit :=
  ⟨rfl, fun n _ => Nat.zero_le n⟩

/-- A call that may begin keeps the limit. -/
theorem Within.push (hs : s.Within bound) (h : s.push name = .ok t) : t.Within bound := by
  obtain rfl := push_eq h
  refine ⟨hs.limit, fun n hn => ?_⟩
  rw [CallStack.push, hs.limit, hn] at h
  dsimp only at h
  split at h
  · cases h
  · rename_i hdepth
    exact Nat.lt_of_not_le hdepth

/-- No call begins where as many are live as there may be. -/
theorem push_full {n : Nat} (hlimit : s.limit = some n) (hdepth : s.depth = n) :
    s.push name = .error (.of (.stackOverflow n)) := by
  rw [push, hlimit]
  exact if_pos (Nat.le_of_eq hdepth.symm)

/-- Give an error the live calls as its backtrace, if there are any and it has none. -/
def attach (s : CallStack) (e : EvalError) : EvalError := e.withBacktrace s.names

end CallStack
end TreeScript
