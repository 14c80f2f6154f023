import TreeScript.Table

/-!
# Pooled scopes

A call of a function of the program runs in a scope that a finished call of the same function may
have left.  Each function keeps a limited number of idle scopes; a pool of capacity zero keeps none,
so that every call runs in a new scope.
-/

namespace TreeScript

/-- The idle scopes of each function of the catalog, most recently left first, and how many of them
a function may keep. -/
structure Pool where
  capacity : Nat
  free : Table Nat (List Nat)

namespace Pool

/-- A pool without idle scopes. -/
def empty (capacity : Nat) : Pool := ⟨capacity, .empty⟩

/-- The idle scopes of a function. -/
def idle (p : Pool) (function : Nat) : List Nat := (p.free.find? function).getD []

/-- Replace the idle scopes of a function. -/
def withIdle (p : Pool) (function : Nat) (scopes : List Nat) : Pool :=
  { p with free := p.free.insert function scopes }

/-- Take the idle scope of a function that was left last. -/
def acquire? (p : Pool) (function : Nat) : Option (Nat × Pool) :=
  match p.idle function with
  | scope :: rest => some (scope, p.withIdle function rest)
  | [] => none

/-- Leave a scope to a function, if it may keep one more. -/
def release (p : Pool) (function scope : Nat) : Pool :=
  let scopes := p.idle function
  if scopes.length < p.capacity then p.withIdle function (scope :: scopes) else p

/-! ## Idle scopes after each operation -/

@[simp] theorem idle_empty (capacity function : Nat) : (empty capacity).idle function = [] := rfl

theorem idle_withIdle (p : Pool) (f g : Nat) (scopes : List Nat) :
    (p.withIdle f scopes).idle g = if g = f then scopes else p.idle g := by
  simp only [idle, withIdle, Table.find?_insert]
  split <;> rfl

@[simp] theorem capacity_withIdle (p : Pool) (f : Nat) (scopes : List Nat) :
    (p.withIdle f scopes).capacity = p.capacity := rfl

@[simp] theorem capacity_release (p : Pool) (f scope : Nat) :
    (p.release f scope).capacity = p.capacity := by
  simp only [release]
  split <;> rfl

theorem idle_release (p : Pool) (f g scope : Nat) :
    (p.release f scope).idle g =
      if g = f ∧ (p.idle f).length < p.capacity then scope :: p.idle f else p.idle g := by
  by_cases h : (p.idle f).length < p.capacity <;> by_cases hg : g = f <;>
    simp [release, h, hg, idle_withIdle]

/-- An acquired scope was the first idle one of its function, and no other function's change. -/
theorem idle_of_acquire? {p q : Pool} {f scope : Nat} (h : p.acquire? f = some (scope, q)) :
    p.idle f = scope :: q.idle f ∧ ∀ g ≠ f, q.idle g = p.idle g := by
  simp only [acquire?] at h
  split at h
  · rename_i s rest heq
    simp only [Option.some.injEq, Prod.mk.injEq] at h
    obtain ⟨rfl, rfl⟩ := h
    refine ⟨by simp [idle_withIdle, heq], fun g hg => by simp [idle_withIdle, hg]⟩
  · exact absurd h (by simp)

end Pool
end TreeScript
