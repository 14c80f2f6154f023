import TreeScript.Proofs.Simulation.Invariant

/-
# Moments of an evaluation

What holds at every moment is said by watching.  Before and after every node an *alarm* looks at the
state, and where it goes off there is a reaction, whatever that may be: it may stop the evaluation, leave
a trace, or change everything.  If the evaluation is what it is without the watch, for every alarm that is
silent where a property holds and for every reaction, then the property holds at every moment.
-/

namespace TreeScript

namespace Exec

/-- React where an alarm goes off. -/
def watch (alarm : State → Bool) (react : Exec Unit) : Exec Unit := fun ev s =>
  if alarm s then react ev s else (.value (), s)

/-- Change what has been printed. -/
def printing (mark : Output → Output) : Exec Unit := fun _ s =>
  (.value (), s.withOutput (mark s.session.output))

/-- How an evaluation ends. -/
def outcomeOf {α : Type} (x : Exec α) : Exec (Outcome α) := fun ev s =>
  match x ev s with
  | (o, s) => (.value o, s)

/-- End in a way. -/
def conclude {α : Type} (o : Outcome α) : Exec α := fun _ s => (o, s)

/-- An evaluation that always goes on. -/
def GoesOn (x : Exec Unit) : Prop := ∀ ev s, ∃ t, x ev s = (.value (), t)

/-- Watch before and after an evaluation, however it ends. -/
def watching (alarm : State → Bool) (react : Exec Unit) (x : Exec Value) : Exec Value := do
  watch alarm react
  let o ← outcomeOf x
  watch alarm react
  conclude o

theorem watching_apply {alarm : State → Bool} {react : Exec Unit} {x : Exec Value} {ev : Evaluator}
    {s t u : State} (hbefore : watch alarm react ev s = (.value (), t))
    (hafter : watch alarm react ev (x ev t).2 = (.value (), u)) :
    watching alarm react x ev s = ((x ev t).1, u) := by
  simp only [watching, bind_apply, hbefore, outcomeOf, hafter, conclude]

/-- Where an alarm is silent, nothing is changed. -/
theorem watch_of_silent {alarm : State → Bool} {s : State} (h : alarm s = false) (react : Exec Unit)
    (ev : Evaluator) : watch alarm react ev s = (.value (), s) := by
  unfold watch
  rw [h]
  rfl

theorem goesOn_watch {alarm : State → Bool} {react : Exec Unit} (h : GoesOn react) :
    GoesOn (watch alarm react) := by
  intro ev s
  unfold watch
  split
  · exact h ev s
  · exact ⟨s, rfl⟩

/-- An alarm that never goes off is no watch. -/
theorem watching_never (react : Exec Unit) (x : Exec Value) :
    watching (fun _ => false) react x = x := by
  funext ev s
  exact watching_apply (watch_of_silent rfl react ev) (watch_of_silent rfl react ev)

end Exec

open Exec

/-- The evaluator with a bound that watches every node, and makes of a node what an account says. -/
def observedBy (account : Node → Nat → Exec Value) (alarm : State → Bool) (react : Exec Unit)
    (fuel : Nat) : Evaluator :=
  .untraced fuel (evaluateBy (fun e scope => watching alarm react (account e scope)) fuel)

/-- The evaluator with a bound that watches every node. -/
def observed (alarm : State → Bool) (react : Exec Unit) (fuel : Nat) : Evaluator :=
  .untraced fuel (evaluateBy (fun e scope => watching alarm react (dispatch e scope)) fuel)

theorem observed_eq_observedBy : observed = observedBy dispatch := rfl

theorem observedBy_never (account : Node → Nat → Exec Value) (fuel : Nat) :
    observedBy account (fun _ => false) (pure ()) fuel = .untraced fuel (evaluateBy account fuel) := by
  simp only [observedBy, watching_never]

theorem observed_never (fuel : Nat) : observed (fun _ => false) (pure ()) fuel = evaluator fuel := by
  rw [observed_eq_observedBy, observedBy_never, evaluator, evaluateNode_eq_evaluateBy]

/-- A property holds at every moment of an evaluation that begins in a state. -/
def Exec.Always (P : State → Prop) (x : Exec Value) (fuel : Nat) (s : State) : Prop :=
  ∀ (alarm : State → Bool) (react : Exec Unit), (∀ t, P t → alarm t = false) →
    x (observed alarm react fuel) s = x (evaluator fuel) s

namespace Simulation

variable {S : Simulation} {ev ev' : Evaluator} {w w' w'' : S.World}

/-- What is known later is known of a signal. -/
theorem Raised.later (O : S.Ordered) {g g' : Signal} (h : S.Raised w w' g g') (hle : S.le w' w'') :
    S.Raised w w'' g g' := by
  cases h with
  | breakLoop v h => exact .breakLoop v (O.le_trans h hle)
  | continueLoop h => exact .continueLoop (O.le_trans h hle)
  | yieldValue v h hway => exact .yieldValue v (O.le_trans h hle) (O.way_mono hle hway)
  | returnValue v h => exact .returnValue v (O.unwound_trans h (O.unwound_of_le hle))
  | throwValue v h => exact .throwValue v (O.unwound_trans h (O.unwound_of_le hle))
  | error e h => exact .error e (O.unwound_trans h (O.unwound_of_le hle))

/-- Watches that keep the two sides related. -/
def Watches (S : Simulation) (ev ev' : Evaluator) (x y : Exec Unit) : Prop :=
  ∀ {w s s'}, S.rel w s s' → ∃ t t' w', x ev s = (.value (), t) ∧ y ev' s' = (.value (), t') ∧
    S.le w w' ∧ S.rel w' t t'

section
variable {alarm alarm' : State → Bool} {react react' : Exec Unit}

/-- Two sides that are watched end alike if the watches keep them related. -/
theorem agrees_watching (O : S.Ordered) (hgoes : GoesOn (watch alarm react))
    (hwatch : S.Watches ev ev' (watch alarm react) (watch alarm' react')) {x y : Exec Value}
    (h : ∀ w', S.le w w' → S.Agrees ev ev' w' x y) :
    S.Agrees ev ev' w (watching alarm react x) (watching alarm' react' y) := by
  intro s s' hs
  obtain ⟨t, t', w₁, hbefore, hbefore', h₁, ht⟩ := hwatch hs
  have hends := h w₁ h₁ t t' ht
  refine Ends.mono O h₁ ?_
  have hafter : ∀ u, watch alarm react ev (x ev t).2 = (.value (), u) →
      watching alarm react x ev s = ((x ev t).1, u) := fun _ h => watching_apply hbefore h
  have hafter' : ∀ u, watch alarm' react' ev' (y ev' t').2 = (.value (), u) →
      watching alarm' react' y ev' s' = ((y ev' t').1, u) := fun _ h => watching_apply hbefore' h
  generalize x ev t = p at hends hafter
  generalize y ev' t' = q at hends hafter'
  -- however the body has ended, the watches run once more in the states that it leaves
  cases hends with
  | value hle hrel hab =>
    obtain ⟨u, u', w₂, hu, hu', h₂, hrel⟩ := hwatch hrel
    rw [hafter u hu, hafter' u' hu']
    exact .value (O.le_trans hle h₂) hrel hab
  | signal hg hrel =>
    obtain ⟨u, u', w₂, hu, hu', h₂, hrel⟩ := hwatch hrel
    rw [hafter u hu, hafter' u' hu']
    exact .signal (hg.later O h₂) hrel
  | halted k hle hrel =>
    obtain ⟨u, u', w₂, hu, hu', h₂, hrel⟩ := hwatch hrel
    rw [hafter u hu, hafter' u' hu']
    exact .halted k (O.unwound_trans hle (O.unwound_of_le h₂)) hrel
  | stopped t r hlax =>
    obtain ⟨u, hu⟩ := hgoes ev t
    rw [hafter u hu]
    exact .stopped u _ hlax

/-- Two evaluators that are watched agree if what they make of a node agrees. -/
theorem ready_observedBy (L : S.Lawful) {account account' : Node → Nat → Exec Value}
    (hgoes : GoesOn (watch alarm react))
    (hwatch : ∀ ev ev', S.Watches ev ev' (watch alarm react) (watch alarm' react'))
    (h : ∀ {ev ev' : Evaluator} {w : S.World} {e : Node} {c c' : Nat}, S.Ready ev ev' →
      S.fits w e → S.scope w c c' → S.Agrees ev ev' w (account e c) (account' e c')) (n : Nat) :
    S.Ready (observedBy account alarm react n) (observedBy account' alarm' react' n) := by
  refine ready_evaluateBy L (fun {ev ev' w e c c'} R he hc => ?_) n
  refine agrees_watching L.toOrdered hgoes (hwatch ev ev') fun w' hle => ?_
  exact h R (L.fits_mono (L.unwound_of_le hle) he) (L.scope_mono hle hc)

/-- The evaluator beside the one that is watched, where an exception unwinds without leaving a scope. -/
theorem ready_observed (L : S.Lawful) (hsteady : ∀ {w w' : S.World}, S.unwound w w' → S.le w w')
    (hwatch : ∀ ev ev', S.Watches ev ev' (pure ()) (watch alarm react)) (n : Nat) :
    S.Ready (evaluator n) (observed alarm react n) := by
  have hnever : watch (fun _ => false) (pure ()) = pure () := rfl
  rw [← observed_never, observed_eq_observedBy]
  refine ready_observedBy L (goesOn_watch fun _ s => ⟨s, rfl⟩) (hnever ▸ hwatch) (fun R he hc => ?_) n
  exact agrees_dispatch_of_steady L R hc he hsteady

end
end Simulation

/-- An alarm that is silent wherever an invariant without marks holds is not noticed. -/
theorem Invariant.ready_observed {I : Invariant} (K : I.Upheld) (hmarked : ∀ w, ¬ I.marked w)
    {alarm : State → Bool} (halarm : ∀ w s, I.holds w s → alarm s = false) (react : Exec Unit)
    (n : Nat) : I.toSimulation.Ready (evaluator n) (observed alarm react n) := by
  refine Simulation.ready_observed K.lawful (fun h => h) (fun ev ev' {w s s'} hs => ?_) n
  obtain rfl := hs.2.eq (hmarked w)
  exact ⟨s, s, w, rfl, watch_of_silent (halarm w s hs.1) react ev', K.le_refl w, hs⟩

/-- An alarm that goes off in marked worlds, and changes what has been printed, is noticed there alone. -/
theorem Invariant.ready_printing {I : Invariant} (K : I.Upheld) {alarm : Heap → Bool}
    (halarm : ∀ w s, I.holds w s → alarm s.heap = true →
      ∃ w', I.le w w' ∧ I.holds w' s ∧ I.marked w') (mark : Output → Output) (n : Nat) :
    I.toSimulation.Ready (evaluator n) (observed (fun s => alarm s.heap) (printing mark) n) := by
  refine Simulation.ready_observed K.lawful (fun h => h) (fun ev ev' {w s s'} hs => ?_) n
  obtain ⟨hs, o, rfl, ho⟩ := hs
  cases hring : alarm s.heap with
  | false =>
    exact ⟨s, s.withOutput o, w, rfl, watch_of_silent hring _ ev', K.le_refl w, hs, o, rfl, ho⟩
  | true =>
    obtain ⟨w', hle, hs', hmarked⟩ := halarm w s hs hring
    refine ⟨s, s.withOutput (mark o), w', rfl, ?_, hle, hs', mark o, rfl, Or.inl hmarked⟩
    unfold watch
    exact if_pos hring

end TreeScript
