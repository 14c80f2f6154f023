import TreeScript.Proofs.Balance
import TreeScript.Proofs.Logs.Fatal

/-
# The step budget

Where the mode of a session has a step budget, it bounds every evaluation: from one renewal to the next
the session lets in no more nodes than the budget says, by whatever path they come to be evaluated, and
the one after them ends the evaluation.  Both are read off the path that the log of the evaluation is.
A history keeps the budget of each session what its mode says.
-/

namespace TreeScript

open Exec

/-! ## Entries of a log -/

namespace Exec.Logs

variable {α : Type} {x : Exec α} {m n : Nat} {s : State} {r : Outcome α × State}
variable {event : Event} {events before segment after : List Event}

/-- Between two renewals no more nodes are let in than the budget says. -/
theorem entered_le (h : Logs m x s (before ++ segment ++ after) r)
    (hbudget : s.session.meter.budget = some n) (hsegment : .renewed ∉ segment) :
    segment.count .entered ≤ n := by
  obtain ⟨g', hfirst, -⟩ := h.path.split
  obtain ⟨g, hbefore, hpath⟩ := hfirst.split
  have hle := hpath.entered_le (hbefore.budget.trans hbudget) hsegment
  exact Nat.le_trans hle (Nat.sub_le n _)

/-- When as many nodes have come since a renewal as the budget says, the next one is refused. -/
theorem exceeded (h : Logs m x s (before ++ .renewed :: segment ++ event :: after) r)
    (hbudget : s.session.meter.budget = some n) (hsegment : .renewed ∉ segment)
    (hfull : segment.countP Event.isEntry = n) (hentry : event.isEntry = true)
    (hunmarked : s.session.cancellation.marked = false) (hmarks : .marked ∉ before ++ segment) :
    event = .refused (.stepBudgetExceeded n) := by
  obtain ⟨hbefore', hsegment'⟩ := not_or.mp (mt List.mem_append.mpr hmarks)
  obtain ⟨g, hfirst, hlast⟩ := h.path.split
  obtain ⟨g₁, hbefore, hrest⟩ := hfirst.split
  have hmarked₁ := (hbefore.of_unmarked hbefore').trans hunmarked
  have hbudget₁ := hbefore.budget.trans hbudget
  cases hrest with
  | cons hrenewed hpath =>
    cases hrenewed
    have hsteps := hpath.steps hbudget₁ hsegment hmarked₁ hsegment'
    cases hlast with
    | cons hstep _ =>
      refine hstep.exceeded_of_full hentry ((hpath.of_unmarked hsegment').trans hmarked₁)
        (hpath.budget.trans hbudget₁) ?_
      rw [hsteps, hfull]
      exact Nat.le_add_left n 0

end Exec.Logs

/-! ## Budgets over histories -/

namespace Session

/-- A session has the step budget of its mode. -/
def Budgeted (s : Session) : Prop := s.meter.budget = s.mode.stepBudget

theorem budgeted_new (id root : Nat) (settings : Settings) :
    (Session.new id root settings).Budgeted := by
  have hblank : (Session.blank id root settings).Budgeted := by
    unfold Budgeted blank
    dsimp only
    split <;> rfl
  exact Session.new_eq (p := Budgeted) (fun _ _ _ => rfl) id root settings ▸ hblank

end Session

/-- A top-level evaluation keeps the step budget. -/
theorem budgeted_run {x : EntryPoint} (hx : Simulation.Fair x.exec) (fuel : Nat) {s : State}
    (hs : s.session.Budgeted) : (x.exec.run fuel s).2.session.Budgeted := by
  obtain ⟨events, r, hlog, -⟩ := loggedOnce_exec fuel x s
  have hbudget := hlog.path.budget
  rw [hlog.eq_run] at hbudget
  show (x.exec.run fuel s).2.session.meter.budget = _
  rw [(hx.balanced fuel s).mode]
  exact hbudget.trans hs

/-- Over every history, each session has the step budget of its mode. -/
theorem Host.serve_budgeted (fuel : Nat → Nat) (rs : List Request) :
    (Host.empty.serve (fun k => evaluator (fuel k)) rs).2.All fun _ s => s.Budgeted :=
  Host.serve_all (fun _ root settings => Session.budgeted_new _ root settings)
    (fun _ _ hx _ _ _ hs => budgeted_run hx _ hs) (fun _ _ _ _ hs => hs) rs

/-! ## The budget bounds evaluations -/

/-- **The step budget bounds every evaluation.**  From one renewal of a budget of `n` steps to the next, at
most `n` nodes are let in; and when `n` have come and the session is not marked, the next one ends the
evaluation with the failure that says so.  An evaluation renews the budget once at most, before anything
else happens.  If nodes are counted, the count grows by those that are let in.  The budget is that of the
mode of the session, over every history. -/
theorem step_budget_bounds (fuel n : Nat) (x : EntryPoint) (s : State)
    (hbudget : s.session.meter.budget = some n) :
    (∃ events r, Logs fuel x.exec s events r ∧ .renewed ∉ events.tail) ∧
    (∀ events r, Logs fuel x.exec s events r → r = x.exec.run fuel s ∧
      r.2.session.meter.budget = some n ∧
      r.2.session.meter.counters.map Counters.nodes =
        (s.session.meter.counters.map Counters.nodes).map (· + events.count .entered) ∧
      (∀ before segment after, events = before ++ segment ++ after → .renewed ∉ segment →
        segment.count .entered ≤ n) ∧
      ∀ before segment event after, events = before ++ .renewed :: segment ++ event :: after →
        .renewed ∉ segment → segment.countP Event.isEntry = n → event.isEntry = true →
        s.session.cancellation.marked = false → .marked ∉ before ++ segment →
        event = .refused (.stepBudgetExceeded n) ∧ after = [] ∧
          ∃ e, r.1 = .signal (.error e) ∧ e.cause = .stepBudgetExceeded n) ∧
    ∀ (fuel : Nat → Nat) (rs : List Request),
      ∀ session ∈ (Host.empty.serve (fun k => evaluator (fuel k)) rs).2.sessions,
        session.meter.budget = session.mode.stepBudget := by
  obtain ⟨events, r, hlog, hevents⟩ := loggedOnce_exec fuel x s
  refine ⟨⟨events, r, hlog, hevents⟩, fun events r hlog => ⟨hlog.eq_run, ?_, hlog.path.nodes, ?_, ?_⟩, ?_⟩
  · exact hlog.path.budget.trans hbudget
  · rintro before segment after rfl hsegment
    exact hlog.entered_le hbudget hsegment
  · rintro before segment event after rfl hsegment hfull hentry hunmarked hmarks
    have hevent := hlog.exceeded hbudget hsegment hfull hentry hunmarked hmarks
    subst hevent
    obtain ⟨hlast, hfatal⟩ := hlog.sealed.last rfl rfl
    obtain ⟨e, he, hcause, -⟩ := Outcome.eq_error_of_fatal? hfatal
    exact ⟨rfl, hlast, e, he, hcause⟩
  · intro fuel rs session hsession
    obtain ⟨k, hk⟩ := Array.mem_iff_getElem?.mp hsession
    exact Host.serve_budgeted fuel rs k session hk

/-- A session that counts nodes and has a budget of four steps. -/
def Session.hurried : Session := .blank 1 0 ⟨.budgeted 4, .buffer "", true, false, 64⟩

/-- A loop without an end. -/
def endlessLoop : Node := .whileLoop (.literal (.bool true)) (.literal .null)

/-- The loop and a round and a half of it are let in, in every log, and then the budget is used up. -/
theorem step_budget_bounds_loop :
    let s : State := ⟨.empty, .empty, [], .hurried⟩
    s.session.meter.budget = some 4 ∧
      (∃ events r, Logs 9 (EntryPoint.evaluate endlessLoop).exec s events r ∧
        .renewed ∉ events.tail) ∧
      ∀ events r, Logs 9 (EntryPoint.evaluate endlessLoop).exec s events r →
        events.count .entered = 4 ∧ r.1.fatal? = some (.stepBudgetExceeded 4) := by
  intro s
  have hbudget : s.session.meter.budget = some 4 := rfl
  obtain ⟨hexists, hlogs, -⟩ :=
    step_budget_bounds 9 4 (.evaluate endlessLoop) s hbudget
  refine ⟨hbudget, hexists, fun events r hlog => ?_⟩
  obtain ⟨rfl, -, hnodes, -⟩ := hlogs events r hlog
  have hcounted : ((EntryPoint.evaluate endlessLoop).exec.run 9 s).2.session.meter.counters.map
      Counters.nodes = some 4 := by decide +kernel
  refine ⟨?_, by decide +kernel⟩
  rw [hcounted] at hnodes
  exact ((Option.some.inj hnodes).trans (Nat.zero_add _)).symm

end TreeScript
