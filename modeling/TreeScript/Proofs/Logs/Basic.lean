import TreeScript.Proofs.Evaluations
import TreeScript.Proofs.Logs.Gauge

/-
# The log of an evaluation

`Logs n x s events r` says that evaluating `x` in the state `s` with bound `n` ends with `r`, and that
`events` have happened in the course of it, in this order.  It has a rule for each way in which
evaluations are put together, and one for each kind of step that makes an event.  A step that makes none
is `Plain`: it evaluates no node and leaves the gauge as it is.

Whatever the log, it is a path from the gauge at the beginning to the one at the end (`Logs.path`), and
what brings about the end of the evaluation is `Sealed` in it: an evaluation ends with a fatal error if
and only if the last event raises it, and no other event raises any.  That is so because each boundary
hands a fatal error on, and no handler takes one, which are premises of the rules (`Framing`,
`LetsFatal`); so that an evaluation has a log at all says that it keeps to them.
-/

namespace TreeScript

/-- The event of raising a fatal error. -/
def Outcome.failures {α : Type} (o : Outcome α) : List Event := (o.fatal?.map Event.failed).toList

namespace Exec

/-! ## Steps -/

section
variable {α β γ : Type}

/-- A step that evaluates no node and leaves the gauge as it is, where nothing is traced. -/
structure Plain (x : Exec α) : Prop where
  alone : ∀ (n : Nat) (eval eval' : Node → Nat → State → Outcome Value × State) (s : State),
    x (.untraced n eval) s = x (.untraced n eval') s
  gauge : ∀ (n : Nat) (eval : Node → Nat → State → Outcome Value × State) (s : State),
    (x (.untraced n eval) s).2.gauge = s.gauge

/-- A step that renews the budget. -/
structure Renews (x : Exec Unit) : Prop where
  value : ∀ (ev : Evaluator) (s : State), (x ev s).1 = .value ()
  gauge : ∀ (ev : Evaluator) (s : State), (x ev s).2.gauge = { s.gauge with steps := 0 }

/-- A step that marks the session. -/
structure Marks (x : Exec Unit) : Prop where
  value : ∀ (ev : Evaluator) (s : State), (x ev s).1 = .value ()
  gauge : ∀ (ev : Evaluator) (s : State), (x ev s).2.gauge = { s.gauge with marked := true }

/-- A handler takes no fatal error. -/
def LetsFatal (take : Signal → Option (Exec α)) : Prop := ∀ g, g.fatal? ≠ none → take g = none

end

/-! ## Logs -/

/-- What happens when something is evaluated in a state with a bound, and how it ends. -/
inductive Logs : Nat → {α : Type} → Exec α → State → List Event → Outcome α × State → Prop
  | plain {n : Nat} {α : Type} {x : Exec α} (hx : Plain x) (s : State) :
      Logs n x s (x.run n s).1.failures (x.run n s)
  | renews {n : Nat} {x : Exec Unit} (hx : Renews x) (s : State) : Logs n x s [.renewed] (x.run n s)
  | marks {n : Nat} {x : Exec Unit} (hx : Marks x) (s : State) : Logs n x s [.marked] (x.run n s)
  | entered {n : Nat} {s t : State} : enterNode.run n s = (.value (), t) →
      Logs n enterNode s [.entered] (.value (), t)
  | refused {n : Nat} {s t : State} {e : EvalError} : enterNode.run n s = (.signal (.error e), t) →
      Logs n enterNode s [.refused e.cause] (.signal (.error e), t)
  | overflow {n : Nat} {name : String} {x : Exec Value} {s : State} {e : EvalError} :
      s.session.calls.push name = .error e →
      Logs n (asCall name x) s [.failed e.cause] (.signal (.error (s.session.calls.attach e)), s)
  | call {n : Nat} {name : String} {x : Exec Value} {s : State} {calls : CallStack}
      {events : List Event} {r : Outcome Value × State} : s.session.calls.push name = .ok calls →
      Logs n x (s.withCalls calls) events r → Logs n (asCall name x) s events (endCall r)
  | next {n : Nat} {α β : Type} {x : Exec α} {f : α → Exec β} {s t : State} {a : α}
      {events events' : List Event} {r : Outcome β × State} : Logs n x s events (.value a, t) →
      Logs n (f a) t events' r → Logs n (x >>= f) s (events ++ events') r
  | signal {n : Nat} {α β : Type} {x : Exec α} {f : α → Exec β} {s t : State} {g : Signal}
      {events : List Event} : Logs n x s events (.signal g, t) →
      Logs n (x >>= f) s events (.signal g, t)
  | halted {n : Nat} {α β : Type} {x : Exec α} {f : α → Exec β} {s t : State} {k : Halt}
      {events : List Event} : Logs n x s events (.halted k, t) →
      Logs n (x >>= f) s events (.halted k, t)
  | framed {n : Nat} {α β : Type} {before : State → State}
      {after : State → Outcome β × State → Outcome α × State} {x : Exec β} {s : State}
      {events : List Event} {r : Outcome β × State} : Framing before after →
      Logs n x (before s) events r → Logs n (framed before after x) s events (after s r)
  | handles {n : Nat} {α : Type} {x y : Exec α} {take : Signal → Option (Exec α)} {s t : State}
      {g : Signal} {events events' : List Event} {r : Outcome α × State} : LetsFatal take →
      Logs n x s events (.signal g, t) → take g = some y → Logs n y t events' r →
      Logs n (handle x take) s (events ++ .handled :: events') r
  | passes {n : Nat} {α : Type} {x : Exec α} {take : Signal → Option (Exec α)} {s : State}
      {events : List Event} {r : Outcome α × State} : Logs n x s events r →
      (∀ g, r.1 = .signal g → take g = none) → Logs n (handle x take) s events r
  | node {n : Nat} {e : Node} {c : Nat} {s : State} {events : List Event}
      {r : Outcome Value × State} : Logs n (evalNode e c) s events r →
      Logs (n + 1) (eval e c) s events r
  | bound {e : Node} {c : Nat} {s : State} : Logs 0 (eval e c) s [] (.halted .outOfFuel, s)

/-! ## What a log says -/

/-- An evaluation ends with a fatal error if the last event raises it, and no other event raises any. -/
inductive Sealed {α : Type} : List Event → Outcome α → Prop
  | mild {events : List Event} {o : Outcome α} : (∀ event ∈ events, event.cause? = none) →
      o.fatal? = none → Sealed events o
  | fatal {events : List Event} {event : Event} {o : Outcome α} {cause : ErrorCause} :
      (∀ event ∈ events, event.cause? = none) → event.cause? = some cause → o.fatal? = some cause →
      Sealed (events ++ [event]) o

section
variable {α β : Type} {x : Exec α} {n : Nat} {s : State} {events events' : List Event}
variable {r : Outcome α × State} {o : Outcome α} {o' : Outcome β}

theorem Sealed.of_fatal? (h : Sealed events o) (hfatal : o'.fatal? = o.fatal?) :
    Sealed events o' := by
  cases h with
  | mild hevents ho => exact .mild hevents (hfatal.trans ho)
  | fatal hevents hevent ho => exact .fatal hevents hevent (hfatal.trans ho)

/-- What ends without a fatal error has raised none. -/
theorem Sealed.mild_of (h : Sealed events o) (ho : o.fatal? = none) :
    ∀ event ∈ events, event.cause? = none := by
  cases h with
  | mild hevents _ => exact hevents
  | fatal _ _ hfatal => cases hfatal.symm.trans ho

theorem Sealed.append (h : Sealed events o) (ho : o.fatal? = none) (h' : Sealed events' o') :
    Sealed (events ++ events') o' := by
  have hfirst := h.mild_of ho
  cases h' with
  | mild hevents hmild =>
    exact .mild (fun event hmem => (List.mem_append.mp hmem).elim (hfirst event) (hevents event)) hmild
  | fatal hevents hevent hfatal =>
    rw [← List.append_assoc]
    exact .fatal (fun event hmem => (List.mem_append.mp hmem).elim (hfirst event) (hevents event)) hevent
      hfatal

theorem Sealed.single {event : Event} {cause : ErrorCause} (hevent : event.cause? = some cause)
    (ho : o.fatal? = some cause) : Sealed [event] o := by
  rw [← List.nil_append [event]]
  exact .fatal (fun _ h => absurd h List.not_mem_nil) hevent ho

theorem Sealed.plain {event : Event} (hevent : event.cause? = none) (ho : o.fatal? = none) :
    Sealed [event] o :=
  .mild (fun _ h => List.mem_singleton.mp h ▸ hevent) ho

/-- Nothing happens after a fatal error has been raised, and the evaluation ends with it. -/
theorem Sealed.last (h : Sealed events o) {before after : List Event} {event : Event}
    {cause : ErrorCause} (hevents : events = before ++ event :: after)
    (hevent : event.cause? = some cause) : after = [] ∧ o.fatal? = some cause := by
  cases h with
  | mild hmild _ =>
    have hmem : event ∈ events := hevents ▸ List.mem_append_right before List.mem_cons_self
    cases hevent.symm.trans (hmild event hmem)
  | @fatal init last _ cause' hmild hlast ho =>
    rcases List.eq_nil_or_concat after with rfl | ⟨front, final, rfl⟩
    · obtain ⟨-, heq⟩ := List.append_inj' hevents rfl
      cases heq
      exact ⟨rfl, ho.trans (hlast.symm.trans hevent)⟩
    · have heq : init ++ [last] = (before ++ event :: front) ++ [final] := by
        rw [hevents, List.concat_eq_append, List.append_assoc, List.cons_append]
      obtain ⟨hinit, -⟩ := List.append_inj' heq rfl
      have hmem : event ∈ init := hinit ▸ List.mem_append_right before List.mem_cons_self
      cases hevent.symm.trans (hmild event hmem)

/-- What ends with a fatal error has raised it last. -/
theorem Sealed.exists_of_fatal? (h : Sealed events o) {cause : ErrorCause}
    (ho : o.fatal? = some cause) :
    ∃ before event, events = before ++ [event] ∧ event.cause? = some cause := by
  cases h with
  | mild _ hmild => cases hmild.symm.trans ho
  | @fatal before event _ _ _ hevent hfatal =>
    exact ⟨before, event, rfl, hevent.trans (hfatal.symm.trans ho)⟩

/-- Counting a node shows in the gauge. -/
theorem gauge_countNode (s : State) (m : Meter) :
    (s.withMeter m.countNode).gauge =
      ⟨m.steps, m.budget, (m.counters.map Counters.nodes).map (· + 1), s.session.cancellation.marked⟩ := by
  have hnodes : (m.countNode.counters).map Counters.nodes = (m.counters.map Counters.nodes).map (· + 1) := by
    rw [Meter.countNode, Meter.count, Option.map_map, Option.map_map]
    rfl
  show (⟨m.steps, m.budget, m.countNode.counters.map Counters.nodes, _⟩ : Gauge) = _
  rw [hnodes]
  rfl

/-- A step is allowed as long as the budget lasts. -/
theorem step_cases (m : Meter) :
    (m.step.1 = .ok () ∧ m.step.2.budget = m.budget ∧ m.step.2.counters = m.counters ∧
      m.step.2.steps = (if m.budget.isSome then m.steps + 1 else m.steps) ∧
      ∀ n, m.budget = some n → m.steps < n) ∨
    ∃ n, m.step.1 = .error (.of (.stepBudgetExceeded n)) ∧ m.budget = some n ∧ n ≤ m.steps ∧
      m.step.2 = { m with steps := m.steps + 1 } := by
  unfold Meter.step
  cases hbudget : m.budget with
  | none => exact Or.inl ⟨rfl, hbudget, rfl, rfl, fun n hn => by cases hn⟩
  | some budget =>
    dsimp only
    by_cases hlt : budget < m.steps + 1
    · rw [if_pos hlt]
      exact Or.inr ⟨budget, rfl, rfl, Nat.le_of_lt_succ hlt, rfl⟩
    · rw [if_neg hlt]
      refine Or.inl ⟨rfl, rfl, rfl, rfl, fun n hn => ?_⟩
      cases hn
      exact Nat.lt_of_not_le fun h => hlt (Nat.lt_succ_of_le h)

/-- What is done at every node lets the node in or refuses it, as the gauge says. -/
theorem step_enterNode (n : Nat) (s : State) :
    (∃ t, enterNode.run n s = (.value (), t) ∧ s.gauge.Step .entered t.gauge) ∨
      ∃ e t, enterNode.run n s = (.signal (.error e), t) ∧ e.cause.isFatal = true ∧
        s.gauge.Step (.refused e.cause) t.gauge := by
  have henterNode : enterNode.run n s = _ := enterNode_apply (evaluator n) s
  rw [henterNode]
  cases hmarked : s.session.cancellation.marked with
  | true => exact Or.inr ⟨.of .cancelled, s, rfl, rfl, .cancelled hmarked⟩
  | false =>
    have hcases := step_cases s.session.meter
    rw [if_neg Bool.false_ne_true]
    generalize s.session.meter.step = r at hcases
    obtain ⟨_ | _, m⟩ := r
    · rcases hcases with ⟨hok, _⟩ | ⟨budget, herror, hbudget, hle, rfl⟩
      · cases hok
      · cases herror
        exact Or.inr ⟨_, _, rfl, rfl, .exceeded hmarked hbudget hle⟩
    · rcases hcases with ⟨-, hbudget, hcounters, hsteps, hallowed⟩ | ⟨_, herror, _⟩
      · refine Or.inl ⟨_, rfl, ?_⟩
        have henter : (s.withMeter m.countNode).gauge = s.gauge.enter := by
          rw [gauge_countNode, hbudget, hcounters, hsteps]
          rfl
        rw [henter]
        exact .entered hmarked hallowed
      · cases herror

/-- A call that is refused fails for good. -/
theorem isFatal_of_push {calls : CallStack} {name : String} {e : EvalError}
    (h : calls.push name = .error e) : e.cause.isFatal = true := by
  unfold CallStack.push at h
  split at h
  · split at h <;> cases h
    rfl
  · cases h

/-- A log is that of the run. -/
theorem Logs.eq_run (h : Logs n x s events r) : r = x.run n s := by
  induction h with
  | plain | renews | marks | bound => rfl
  | entered h | refused h => exact h.symm
  | overflow hpush => exact (run_asCall_of_error hpush).symm
  | call hpush _ ih => rw [run_asCall_of_ok hpush, ih]
  | next _ _ ih ih' => rw [run_bind_of_value ih.symm, ih']
  | signal _ ih => exact (run_bind_of_signal ih.symm).symm
  | halted _ ih => exact (run_bind_of_halted ih.symm).symm
  | framed _ _ ih =>
    rw [ih]
    rfl
  | handles _ _ htake _ ih ih' => rw [run_handle_of_taken ih.symm htake, ih']
  | passes _ hpass ih =>
    rw [ih] at hpass
    rw [run_handle_of_passed hpass, ih]
  | node _ ih => exact ih

/-- A log is a path of the gauge. -/
theorem Logs.path (h : Logs n x s events r) : s.gauge.Path events r.2.gauge := by
  induction h with
  | @plain n α x hx s =>
    have hgauge : (x.run n s).2.gauge = s.gauge := hx.gauge n (evaluateNode n) s
    rw [hgauge, Outcome.failures]
    cases (x.run n s).1.fatal? with
    | none => exact .nil _
    | some cause => exact (Gauge.Step.failed _ cause).path
  | @renews n x hx s =>
    rw [Exec.run, hx.gauge]
    exact (Gauge.Step.renewed _).path
  | @marks n x hx s =>
    rw [Exec.run, hx.gauge]
    exact (Gauge.Step.marked _).path
  | @entered n s t h =>
    rcases step_enterNode n s with ⟨u, hu, hstep⟩ | ⟨e, u, hu, -⟩
    · cases h.symm.trans hu
      exact hstep.path
    · cases h.symm.trans hu
  | @refused n s t e h =>
    rcases step_enterNode n s with ⟨u, hu, -⟩ | ⟨e, u, hu, -, hstep⟩
    · cases h.symm.trans hu
    · cases h.symm.trans hu
      exact hstep.path
  | overflow _ => exact (Gauge.Step.failed _ _).path
  | call _ _ ih => exact ih
  | next _ _ ih ih' => exact ih.append ih'
  | signal _ ih | halted _ ih => exact ih
  | @framed _ _ _ _ _ _ s _ r hframing _ ih =>
    -- what stands around an evaluation does not show in the gauge
    rw [State.gauge_congr (hframing.core_after s r), ← State.gauge_congr (hframing.core_before s)]
    exact ih
  | handles _ _ _ _ ih ih' => exact ih.append (.cons (.handled _) ih')
  | passes _ _ ih => exact ih
  | node _ ih => exact ih
  | bound => exact .nil _

/-- A log is sealed by how the evaluation ends. -/
theorem Logs.sealed (h : Logs n x s events r) : Sealed events r.1 := by
  induction h with
  | @plain n α x _ s =>
    rw [Outcome.failures]
    cases hfatal : (x.run n s).1.fatal? with
    | none => exact .mild (fun _ hmem => absurd hmem List.not_mem_nil) hfatal
    | some cause => exact .single rfl hfatal
  | @renews n x hx s => exact .plain rfl (by rw [Exec.run, hx.value]; rfl)
  | @marks n x hx s => exact .plain rfl (by rw [Exec.run, hx.value]; rfl)
  | entered _ => exact .plain rfl rfl
  | @refused n s t e h =>
    rcases step_enterNode n s with ⟨u, hu, -⟩ | ⟨e, u, hu, hfatal, -⟩
    · cases h.symm.trans hu
    · cases h.symm.trans hu
      exact .single rfl (by rw [Outcome.fatal?_error, hfatal]; rfl)
  | @overflow n name x s e hpush =>
    refine .single rfl ?_
    have hattach := fatal?_attach s.session.calls (Outcome.signal (.error e) : Outcome Value)
    rw [Outcome.fatal?_error, isFatal_of_push hpush] at hattach
    exact hattach
  | call _ _ ih => exact ih.of_fatal? (fatal?_attach _ _)
  | next _ _ ih ih' => exact ih.append rfl ih'
  | signal _ ih | halted _ ih => exact ih.of_fatal? rfl
  | framed hframing _ ih => exact ih.of_fatal? (hframing.fatal _ _)
  | @handles n α x y take s t g events events' r hlets _ htake _ ih ih' =>
    -- what was handled is not fatal, since handlers let fatal errors through
    have hmild : (Outcome.signal g : Outcome α).fatal? = none := by
      cases hg : g.fatal? with
      | none => exact hg
      | some cause =>
        have hnone := hlets g (by rw [hg]; nofun)
        cases hnone.symm.trans htake
    have hhandled : Sealed [.handled] (Outcome.signal g : Outcome α) := .plain rfl hmild
    have hseq := (ih.append hmild hhandled).append hmild ih'
    rwa [List.append_assoc] at hseq
  | passes _ _ ih => exact ih
  | node _ ih => exact ih
  | bound => exact .mild (fun _ hmem => absurd hmem List.not_mem_nil) rfl

end
end Exec
end TreeScript
