import TreeScript.Proofs.Logic.Basic

/-
# What a session counts

Of all that happens in an evaluation, a session keeps account of little: how many steps were taken since
the budget was renewed, how many nodes were counted, and whether it is marked.  This is its *gauge*.  The
events that move the gauge are the entries of nodes, the renewals of the budget and the marks; what the
gauge shows decides which events may come next (`Gauge.Step`).

So a list of events is a path from one gauge to another, and what can be said of all evaluations is said
of paths here: a marked session lets no node in, and between two renewals no more nodes are let in than
the budget allows.
-/

namespace TreeScript

/-! ## Events -/

/-- What happens in an evaluation. -/
inductive Event where
  /-- The budget is renewed. -/
  | renewed
  /-- A node gets past what is done at every node. -/
  | entered
  /-- A node is refused. -/
  | refused (cause : ErrorCause)
  /-- A fatal error is raised elsewhere. -/
  | failed (cause : ErrorCause)
  /-- The session is marked. -/
  | marked
  /-- A handler begins. -/
  | handled
  deriving DecidableEq, Repr

namespace Event

/-- The cause of the fatal error that is raised. -/
def cause? : Event → Option ErrorCause
  | refused cause | failed cause => some cause
  | _ => none

/-- Whether a node comes to what is done at every node. -/
def isEntry : Event → Bool
  | entered | refused _ => true
  | _ => false

end Event

/-! ## Gauges -/

/-- What a session counts. -/
structure Gauge where
  steps : Nat
  budget : Option Nat
  /-- How many nodes were counted, if they are. -/
  nodes : Option Nat
  marked : Bool

/-- The gauge of a state. -/
def State.gauge (s : State) : Gauge :=
  ⟨s.session.meter.steps, s.session.meter.budget, s.session.meter.counters.map Counters.nodes,
    s.session.cancellation.marked⟩

/-- The gauge shows nothing but what is in the core. -/
theorem State.gauge_congr {s t : State} (h : s.core = t.core) : s.gauge = t.gauge := by
  let shown (c : Core) : Gauge := ⟨c.steps, c.budget, c.nodes, c.cancellation.marked⟩
  exact congrArg shown h

namespace Gauge

/-- The gauge after a node has been let in. -/
def enter (g : Gauge) : Gauge :=
  { g with
    steps := if g.budget.isSome then g.steps + 1 else g.steps
    nodes := g.nodes.map (· + 1) }

/-- What an event does to the gauge that admits it. -/
inductive Step : Gauge → Event → Gauge → Prop
  | renewed (g : Gauge) : Step g .renewed { g with steps := 0 }
  | entered {g : Gauge} : g.marked = false → (∀ n, g.budget = some n → g.steps < n) →
      Step g .entered g.enter
  | cancelled {g : Gauge} : g.marked = true → Step g (.refused .cancelled) g
  | exceeded {g : Gauge} {n : Nat} : g.marked = false → g.budget = some n → n ≤ g.steps →
      Step g (.refused (.stepBudgetExceeded n)) { g with steps := g.steps + 1 }
  | failed (g : Gauge) (cause : ErrorCause) : Step g (.failed cause) g
  | marked (g : Gauge) : Step g .marked { g with marked := true }
  | handled (g : Gauge) : Step g .handled g

/-- What events do to a gauge, one after the other. -/
inductive Path : Gauge → List Event → Gauge → Prop
  | nil (g : Gauge) : Path g [] g
  | cons {g g' g'' : Gauge} {event : Event} {events : List Event} :
      Step g event g' → Path g' events g'' → Path g (event :: events) g''

variable {g g' g'' : Gauge} {event : Event} {events events' : List Event} {n : Nat}

theorem Step.path (h : Step g event g') : Path g [event] g' := .cons h (.nil g')

theorem Path.append (h : Path g events g') (h' : Path g' events' g'') :
    Path g (events ++ events') g'' := by
  induction h with
  | nil => exact h'
  | cons hstep _ ih => exact .cons hstep (ih h')

/-- A path may be cut anywhere. -/
theorem Path.split (h : Path g (events ++ events') g'') :
    ∃ g', Path g events g' ∧ Path g' events' g'' := by
  induction events generalizing g with
  | nil => exact ⟨g, .nil g, h⟩
  | cons event events ih =>
    cases h with
    | cons hstep hrest =>
      obtain ⟨g', hfirst, hlast⟩ := ih hrest
      exact ⟨g', .cons hstep hfirst, hlast⟩

/-! ## What stays along a path -/

theorem Step.budget (h : Step g event g') : g'.budget = g.budget := by
  cases h <;> rfl

theorem Path.budget (h : Path g events g') : g'.budget = g.budget := by
  induction h with
  | nil => rfl
  | cons hstep _ ih => exact ih.trans hstep.budget

/-- A marked session stays marked, and lets no node in. -/
theorem Path.of_marked (h : Path g events g') (hmarked : g.marked = true) :
    g'.marked = true ∧ .entered ∉ events := by
  induction h with
  | nil => exact ⟨hmarked, List.not_mem_nil⟩
  | @cons g g₁ _ event events hstep _ ih =>
    have hnext : g₁.marked = true ∧ event ≠ .entered := by
      -- only an unmarked gauge enters a node or exceeds its budget
      cases hstep with
      | entered hunmarked _ => cases hmarked.symm.trans hunmarked
      | exceeded hunmarked _ _ => cases hmarked.symm.trans hunmarked
      | renewed | cancelled _ | failed _ | handled => exact ⟨hmarked, nofun⟩
      | marked => exact ⟨rfl, nofun⟩
    obtain ⟨hlast, hrest⟩ := ih hnext.1
    refine ⟨hlast, fun hmem => ?_⟩
    rcases List.mem_cons.mp hmem with heq | hmem
    · exact hnext.2 heq.symm
    · exact hrest hmem

/-- A session that is never marked stays unmarked. -/
theorem Path.of_unmarked (h : Path g events g') (hevents : .marked ∉ events) :
    g'.marked = g.marked := by
  induction h with
  | nil => rfl
  | cons hstep _ ih =>
    have hfirst : _ ≠ Event.marked := fun heq => hevents (heq ▸ List.mem_cons_self)
    refine (ih fun hmem => hevents (List.mem_cons_of_mem _ hmem)).trans ?_
    cases hstep <;> first | rfl | exact absurd rfl hfirst

/-! ## Counting along a path -/

/-- Every node that is let in is counted, and nothing else. -/
theorem Path.nodes (h : Path g events g') :
    g'.nodes = g.nodes.map (· + events.count .entered) := by
  induction h with
  | nil => exact Option.map_id'.symm
  | @cons g g₁ g₂ event events hstep _ ih =>
    rw [ih]
    cases hstep with
    | entered _ _ =>
      rw [List.count_cons_self, Gauge.enter, Option.map_map]
      refine congrArg (Option.map · g.nodes) (funext fun m => ?_)
      show m + 1 + _ = m + (_ + 1)
      omega
    | renewed | cancelled _ | exceeded _ _ _ | failed _ | marked | handled =>
      rw [List.count_cons_of_ne (by nofun)]

/-- Without a renewal, every node that comes to a session which is not marked takes a step. -/
theorem Path.steps (h : Path g events g') (hbudget : g.budget = some n) (hrenewed : .renewed ∉ events)
    (hmarked : g.marked = false) (hmarks : .marked ∉ events) :
    g'.steps = g.steps + events.countP Event.isEntry := by
  induction h with
  | nil => rfl
  | @cons g g₁ g₂ event events hstep _ ih =>
    have hrest : .renewed ∉ events := fun hmem => hrenewed (List.mem_cons_of_mem _ hmem)
    have hmarks' : .marked ∉ events := fun hmem => hmarks (List.mem_cons_of_mem _ hmem)
    have hsteps := ih (hstep.budget.trans hbudget) hrest
    -- entries and refusals by the budget take a step each, and no mark refuses any
    cases hstep with
    | renewed => exact absurd List.mem_cons_self hrenewed
    | marked => exact absurd List.mem_cons_self hmarks
    | entered hunmarked _ =>
      rw [hsteps hunmarked hmarks', List.countP_cons_of_pos rfl, Gauge.enter, hbudget]
      simp only [Option.isSome_some, if_true]
      omega
    | exceeded hunmarked _ _ =>
      rw [hsteps hunmarked hmarks', List.countP_cons_of_pos rfl]
      dsimp only
      omega
    | cancelled hm => cases hm.symm.trans hmarked
    | failed _ | handled =>
      rw [hsteps hmarked hmarks', List.countP_cons_of_neg Bool.false_ne_true]

/-- Without a renewal, no more nodes are let in than the budget has left. -/
theorem Path.entered_le (h : Path g events g') (hbudget : g.budget = some n)
    (hrenewed : .renewed ∉ events) : events.count .entered ≤ n - g.steps := by
  induction h with
  | nil => exact Nat.zero_le _
  | @cons g g₁ g₂ event events hstep _ ih =>
    have hrest : .renewed ∉ events := fun hmem => hrenewed (List.mem_cons_of_mem _ hmem)
    have hle := ih (hstep.budget.trans hbudget) hrest
    -- what is let in was allowed by the budget at that moment, and uses up a step of it
    cases hstep with
    | renewed => exact absurd List.mem_cons_self hrenewed
    | entered _ hallowed =>
      have hlt := hallowed n hbudget
      rw [List.count_cons_self]
      rw [Gauge.enter, hbudget] at hle
      simp only [Option.isSome_some, if_true] at hle
      omega
    | exceeded _ _ _ =>
      rw [List.count_cons_of_ne (by nofun)]
      dsimp only at hle
      omega
    | cancelled _ | failed _ | marked | handled =>
      rw [List.count_cons_of_ne (by nofun)]
      exact hle

/-- When the budget is used up, the next node is refused, unless the session is marked. -/
theorem Step.exceeded_of_full (h : Step g event g') (hentry : event.isEntry = true)
    (hmarked : g.marked = false) (hbudget : g.budget = some n) (hfull : n ≤ g.steps) :
    event = .refused (.stepBudgetExceeded n) := by
  cases h with
  | entered _ hallowed => exact absurd (hallowed n hbudget) (Nat.not_lt.mpr hfull)
  | cancelled hm => cases hm.symm.trans hmarked
  | exceeded _ hm _ =>
    cases hm.symm.trans hbudget
    rfl
  | renewed | failed _ | marked | handled => cases hentry

end Gauge
end TreeScript
