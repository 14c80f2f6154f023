import TreeScript.Proofs.Logic.Core
import TreeScript.Proofs.Logic.Nodes
import TreeScript.Proofs.Logs.Basic
import TreeScript.Proofs.Sessions

/-
# Everything that is evaluated has a log

Having a log is a lawful logic: the steps of the constructs are plain, and each way of putting evaluations
together has a rule for logs.  So every node has a log, by induction on the bound, and so has whatever is
put together from nodes.  Nothing but the entry points renews the budget.
-/

namespace TreeScript

open Exec

namespace Exec

/-! ## Plain steps -/

section
variable {α : Type} {x : Exec α} {n : Nat} {s : State}

/-- A step on the state that the gauge does not show. -/
theorem plain_step {step : State → Outcome α × State} (h : ∀ s, (step s).2.gauge = s.gauge) :
    Plain fun _ s => step s :=
  ⟨fun _ _ _ _ => rfl, fun _ _ s => h s⟩

theorem plain_session (f : Session → α) : Plain (session f) := plain_step fun _ => rfl

/-- A class that is defined does not show in the gauge. -/
theorem plain_defineClass (d : ClassDecl Node) :
    Plain (do
      let s ← ofExcept (← session fun s => s.defineClass d)
      modifySession fun _ => s) := by
  constructor
  · intro n eval eval' s
    simp only [bind_apply, session]
    cases s.session.defineClass d <;> rfl
  · intro n eval s
    simp only [bind_apply, session]
    cases hdefined : s.session.defineClass d with
    | error e => rfl
    | ok t =>
      obtain ⟨cls, -, hadded⟩ := Session.exists_of_defineClass hdefined
      have hkept := Session.addClass_eq (p := fun s => (s.meter, s.cancellation))
        (fun _ _ _ => rfl) hadded
      obtain ⟨hmeter, hmarks⟩ := Prod.mk.inj hkept
      show (⟨t.meter.steps, t.meter.budget, t.meter.counters.map Counters.nodes,
        t.cancellation.marked⟩ : Gauge) = _
      rw [hmeter, hmarks]
      rfl

theorem plain_resolveCall (site : Nat) (name : String) (argc : Nat) :
    Plain (resolveCall site name argc) := by
  constructor
  · intro n eval eval' s
    rw [resolveCall_apply, resolveCall_apply]
  · intro n eval s
    rw [resolveCall_apply]
    cases remembered site s with
    | some callee => rfl
    | none => cases s.session.catalog.callee? name argc <;> rfl

theorem plain_throwing (v : Value) : Plain (throwing v) where
  alone _ _ _ s := by rw [throwing_apply, throwing_apply]
  gauge _ _ s := by rw [throwing_apply]

theorem plain_classForFailure (e : EvalError) : Plain (classForFailure e) where
  alone _ _ _ s := by rw [classForFailure_apply, classForFailure_apply]
  gauge _ _ s := by rw [classForFailure_apply]

/-- A plain step renews nothing. -/
theorem renewed_not_mem_failures (o : Outcome α) : .renewed ∉ o.failures := by
  intro hmem
  obtain ⟨cause, _, hcause⟩ := Option.map_eq_some_iff.mp (Option.mem_toList.mp hmem)
  cases hcause

end
end Exec

/-! ## The logic -/

/-- From every state an evaluation has a log, without renewals.  Nothing is asked of the code that runs. -/
def Logic.logs (n : Nat) : Logic where
  World := Unit
  le _ _ := True
  good _ _ := True
  holds w x Q :=
    ∀ s, ∃ events r, Logs n x s events r ∧ .renewed ∉ events ∧ ∀ a, r.1 = .value a → Q w a
  code _ _ := True
  cls _ _ := True
  routine _ _ _ := True
  function _ _ _ := True
  enters _ _ := True

namespace Logic

section
variable {n : Nat} {α β : Type} {x : Exec α} {Q : Unit → α → Prop} {w : Unit}

theorem logs_plain (hx : Plain x) (hQ : ∀ s a, (x.run n s).1 = .value a → Q w a) :
    (logs n).holds w x Q :=
  fun s => ⟨_, _, .plain hx s, renewed_not_mem_failures _, hQ s⟩

/-- A step that does nothing else than what its law says. -/
theorem logs_keeps (hx : Plain x) : (logs n).Keeps x := fun _ => logs_plain hx fun _ _ _ => trivial

theorem logs_bind {f : α → Exec β} {Q' : Unit → β → Prop} (hx : (logs n).holds w x Q)
    (hf : ∀ w', (logs n).le w w' → ∀ a, Q w' a → (logs n).holds w' (f a) Q') :
    (logs n).holds w (x >>= f) Q' := by
  intro s
  obtain ⟨events, ⟨a | g | k, t⟩, hlog, hevents, hQ⟩ := hx s
  · obtain ⟨events', r, hlog', hevents', hQ'⟩ := hf w trivial a (hQ a rfl) t
    refine ⟨_, r, hlog.next hlog', fun hmem => ?_, hQ'⟩
    exact (List.mem_append.mp hmem).elim hevents hevents'
  · exact ⟨events, _, hlog.signal, hevents, fun _ h => by cases h⟩
  · exact ⟨events, _, hlog.halted, hevents, fun _ h => by cases h⟩

theorem logs_asCall {x : Exec Value} (hx : (logs n).KeepsAt w x) (name : String) :
    (logs n).KeepsAt w (asCall name x) := by
  intro s
  cases hpush : s.session.calls.push name with
  | error e =>
    refine ⟨_, _, .overflow hpush, fun hmem => ?_, fun _ _ => trivial⟩
    cases List.mem_singleton.mp hmem
  | ok calls =>
    obtain ⟨events, r, hlog, hevents, -⟩ := hx (s.withCalls calls)
    exact ⟨events, _, .call hpush hlog, hevents, fun _ _ => trivial⟩

/-- What may be caught is not fatal. -/
theorem letsFatal_of_catchable {take : Signal → Option (Exec α)}
    (h : ∀ e y, take (.error e) = some y → e.isCatchable = true) : LetsFatal take := by
  intro g hg
  cases htake : take g with
  | none => rfl
  | some y =>
    obtain _ | _ | _ | _ | _ | e := g <;> try exact absurd rfl hg
    cases hfatal : e.cause.isFatal with
    | true =>
      have hcatchable : e.cause.isCatchable = true := h e y htake
      cases hcatchable.symm.trans (ErrorCause.isCatchable_of_isFatal hfatal)
    | false => exact absurd (if_neg (by rw [hfatal]; exact Bool.false_ne_true)) hg

theorem logs_handle {take : Signal → Option (Exec α)} (hx : (logs n).KeepsAt w x)
    (hlets : LetsFatal take) (htake : ∀ g y, take g = some y → (logs n).KeepsAt w y) :
    (logs n).KeepsAt w (handle x take) := by
  intro s
  obtain ⟨events, ⟨a | g | k, t⟩, hlog, hevents, -⟩ := hx s
  · refine ⟨events, _, hlog.passes fun _ h => ?_, hevents, fun _ _ => trivial⟩
    cases h
  · cases hg : take g with
    | none =>
      refine ⟨events, _, hlog.passes fun g' hg' => ?_, hevents, fun _ _ => trivial⟩
      cases hg'
      exact hg
    | some y =>
      obtain ⟨events', r, hlog', hevents', -⟩ := htake g y hg t
      refine ⟨_, r, .handles hlets hlog hg hlog', fun hmem => ?_, fun _ _ => trivial⟩
      rcases List.mem_append.mp hmem with hmem | hmem
      · exact hevents hmem
      · rcases List.mem_cons.mp hmem with heq | hmem
        · cases heq
        · exact hevents' hmem
  · refine ⟨events, _, hlog.passes fun _ h => ?_, hevents, fun _ _ => trivial⟩
    cases h

/-- What is done at every node is logged. -/
theorem logs_enterNode : (logs n).Keeps enterNode := by
  intro _ s
  rcases step_enterNode n s with ⟨t, h, _⟩ | ⟨e, t, h, _⟩
  · exact ⟨_, _, .entered h, by decide, fun _ _ => trivial⟩
  · refine ⟨_, _, .refused h, fun hmem => ?_, fun _ _ => trivial⟩
    cases List.mem_singleton.mp hmem

end

theorem coreRules_logs (n : Nat) : (logs n).CoreRules where
  step _ _ h _ _ :=
    logs_plain (plain_step fun s => State.gauge_congr (h s trivial).1) fun s a ha => (h s trivial).2 a ha
  framed hx hpassing s := by
    obtain ⟨events, r, hlog, hevents, -⟩ := hx _
    exact ⟨events, _, hlog.framed hpassing.toFraming, hevents, fun _ _ => trivial⟩

theorem rules_logs (n : Nat) : (logs n).Rules where
  weaken h hQ s := by
    obtain ⟨events, r, hlog, hevents, hr⟩ := h s
    exact ⟨events, r, hlog, hevents, fun a ha => hQ _ a (hr a ha)⟩
  step _ _ h _ := logs_plain
    (plain_step fun s => State.gauge_congr (State.core_of_kernel (h s trivial).1))
    fun s a ha => (h s trivial).2 a ha
  bind := logs_bind
  framed hx htransparent := (coreRules_logs n).framed hx htransparent.toPassing
  asCall hx name := logs_asCall hx name
  handle hx hcatchable htake := logs_handle hx (letsFatal_of_catchable hcatchable) (htake _ trivial)

theorem lenient_logs (n : Nat) : (logs n).Lenient where
  le _ _ := trivial
  code _ _ := trivial
  cls _ _ := trivial
  routine _ _ _ := trivial
  enters _ _ := trivial

theorem worldLaws_logs (n : Nat) : (logs n).WorldLaws :=
  (lenient_logs n).worldLaws fun _ _ _ _ => id

theorem stateLaws_logs (n : Nat) : (logs n).StateLaws :=
  (lenient_logs n).stateLaws (fun _ _ _ _ _ _ _ => trivial) fun _ _ _ _ _ _ _ => trivial

theorem logs_entering {n : Nat} {ps : List Param} {args : List Value} : (logs n).Keeps (entering ps args) :=
  logs_keeps ⟨fun _ _ _ _ => rfl, fun _ _ _ => rfl⟩

theorem lawful_logs (n : Nat) : (logs n).Lawful where
  toWorldLaws := worldLaws_logs n
  toCodeLaws := (lenient_logs n).codeLaws
  toStateLaws := stateLaws_logs n
  toRules := rules_logs n
  fuel := logs_keeps ⟨fun _ _ _ _ => rfl, fun _ _ _ => rfl⟩
  enterNode := logs_enterNode
  entering _ := logs_entering
  mark _ s := ⟨_, _, .marks ⟨fun _ _ => rfl, fun _ _ => rfl⟩ s, by decide, fun _ _ => trivial⟩
  newObject _ _ := logs_keeps (plain_step fun _ => rfl) _
  newCoroutine _ _ _ := logs_keeps (plain_step fun _ => rfl) _
  restart _ := logs_keeps (plain_step fun _ => rfl)
  resumed := (coreRules_logs n).resumed (worldLaws_logs n) (stateLaws_logs n) (rules_logs n)
    fun _ => logs_entering
  newCallable _ _ := logs_keeps (plain_step fun _ => rfl) _
  addFunction _ := logs_keeps (plain_step fun _ => rfl) _
  defineClass {_ d} _ := logs_keeps (plain_defineClass d) _
  reserve _ _ := logs_plain (plain_step fun _ => rfl) fun _ _ _ => trivial
  resolveCall _ := logs_plain (plain_resolveCall _ _ _) fun _ _ _ => trivial
  throwing v := logs_keeps (plain_throwing v)
  classForFailure e _ := logs_plain (plain_classForFailure e) fun _ _ _ => trivial

/-- Every node has a log, from every state and with every bound. -/
theorem ready_logs (n : Nat) : (logs n).Ready where
  toLawful := lawful_logs n
  eval := by
    -- with a bound of `n + 1` the nodes inside a node are evaluated with a bound of `n`
    induction n with
    | zero => exact fun _ c s => ⟨[], _, .bound, List.not_mem_nil, fun _ _ => trivial⟩
    | succ n ih =>
      intro _ e _ c s
      have K : (logs n).Ready := ⟨lawful_logs n, ih⟩
      have hnode : (logs n).Keeps (evalNode e c) := fun _ =>
        K.next K.enterNode fun _ _ _ => keeps_dispatch K trivial c
      obtain ⟨events, r, hlog, hevents, -⟩ := hnode () s
      exact ⟨events, r, .node hlog, hevents, fun _ _ => trivial⟩

end Logic
end TreeScript
