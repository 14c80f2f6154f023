import TreeScript.Proofs.Backtraces.Chronicle
import TreeScript.Proofs.Hierarchy.Sessions
import TreeScript.Proofs.Logic.Core

/-
# Everything that is evaluated has a chronicle

Having a chronicle is a lawful logic, in the states in which the class of exceptions is known.  There is no
other place where a failure would be raised again that has been raised before: a handler that cannot make an
exception of a failure hands it on.  The class is known in every session from its start, and no class takes the
place of another.
-/

namespace TreeScript

open Exec

/-! ## The class of exceptions -/

/-- A session knows the class of exceptions with which it started. -/
def Session.KnowsException (s : Session) : Prop := s.classes.find? exceptionClass = some exceptionDef

namespace Session

theorem knowsException_new (id root : Nat) (settings : Settings) :
    (Session.new id root settings).KnowsException := by
  have hclassed : (Session.new id root settings).Classed fun _ => True :=
    Session.classed_new trivial id root settings
  exact hclassed.exception

/-- A name is given to one class only. -/
theorem KnowsException.defineClass {s t : Session} (hs : s.KnowsException) {d : ClassDecl Node}
    (h : s.defineClass d = .ok t) : t.KnowsException := by
  rw [defineClass_eq_register] at h
  obtain ⟨c, -, hnew, hclasses, -⟩ := exists_of_register h
  unfold KnowsException
  rw [hclasses]
  exact Registered.find?_register hnew hs

theorem failsWith_defineClass (s : Session) (d : ClassDecl Node) :
    FailsWith EvalError.Fresh (s.defineClass d) := by
  rw [defineClass_eq_register]
  unfold register
  refine FailsWith.bind (fun e he => ?_) fun c => ?_
  · obtain ⟨name, -, -, rfl⟩ := Registration.exists_of_build_error he
    exact .of rfl
  · unfold addClass
    split
    · exact .error (.of rfl)
    · exact .ok _

end Session

/-- Only the core matters. -/
theorem State.knowsException_congr {s t : State} (hs : s.session.KnowsException)
    (h : t.core = s.core) : t.session.KnowsException := by
  unfold Session.KnowsException
  rw [show t.session.classes = s.session.classes from congrArg Core.classes h]
  exact hs

namespace Exec

/-! ## Uneventful steps -/

section
variable {α : Type} {n : Nat} {s : State}

/-- A step on the state. -/
theorem uneventful_step {f : State → Outcome α × State} (hcalls : (f s).2.session.calls = s.session.calls)
    (hfresh : (f s).1.Fresh) : Uneventful n (fun _ s => f s) s :=
  ⟨fun _ _ => rfl, hcalls, fun _ he => hfresh.error he⟩

theorem failsWith_step (m : Meter) : FailsWith EvalError.Fresh m.step.1 := by
  unfold Meter.step
  split
  · exact .ok ()
  · dsimp only
    split
    · exact .error (.of rfl)
    · exact .ok ()

theorem uneventful_enterNode : Uneventful n enterNode s where
  alone _ _ := by rw [enterNode_apply, enterNode_apply]
  calls := by
    show (enterNode (evaluator n) s).2.session.calls = _
    rw [enterNode_apply]
    split
    · rfl
    · split <;> rfl
  fresh e he := by
    have henter : enterNode.run n s = _ := enterNode_apply (evaluator n) s
    have hstep := failsWith_step s.session.meter
    rw [henter] at he
    generalize s.session.meter.step = r at he hstep
    obtain ⟨_ | _, m⟩ := r
    · split at he <;> cases he
      · exact .of rfl
      · exact hstep e rfl
    · split at he <;> cases he
      exact .of rfl

theorem uneventful_throwing (v : Value) : Uneventful n (throwing v) s where
  alone _ _ := by rw [throwing_apply, throwing_apply]
  calls := by
    show (throwing v (evaluator n) s).2.session.calls = _
    rw [throwing_apply]
  fresh e he := by
    have hthrow : throwing v (evaluator n) s = _ := throwing_apply v (evaluator n) s
    rw [show (throwing v).run n s = _ from hthrow] at he
    dsimp only at he
    split at he <;> cases he
    exact .of rfl

theorem uneventful_defineClass (d : ClassDecl Node) : Uneventful n (do
    let s ← ofExcept (← session fun s => s.defineClass d)
    modifySession fun _ => s) s where
  alone _ _ := by
    simp only [bind_apply, session]
    cases s.session.defineClass d <;> rfl
  calls := by
    simp only [Exec.run, bind_apply, session]
    cases hdefined : s.session.defineClass d with
    | error e => rfl
    | ok t =>
      obtain ⟨cls, -, hadded⟩ := Session.exists_of_defineClass hdefined
      exact Session.addClass_eq (p := Session.calls) (fun _ _ _ => rfl) hadded
  fresh e he := by
    have hfails := Session.failsWith_defineClass s.session d
    simp only [Exec.run, bind_apply, session] at he
    generalize s.session.defineClass d = r at he hfails
    cases r with
    | error _ =>
      cases he
      exact hfails e rfl
    | ok t => cases he

theorem uneventful_resolveCall (site : Nat) (name : String) (argc : Nat) :
    Uneventful n (resolveCall site name argc) s where
  alone _ _ := by rw [resolveCall_apply, resolveCall_apply]
  calls := by
    show (resolveCall site name argc (evaluator n) s).2.session.calls = _
    rw [resolveCall_apply]
    cases remembered site s with
    | some callee => rfl
    | none => cases s.session.catalog.callee? name argc <;> rfl
  fresh e he := by
    have hresolve : (resolveCall site name argc).run n s = _ :=
      resolveCall_apply site name argc (evaluator n) s
    rw [hresolve] at he
    cases hremembered : remembered site s with
    | some callee =>
      rw [hremembered] at he
      cases he
    | none =>
      rw [hremembered] at he
      cases hcallee : s.session.catalog.callee? name argc with
      | some callee =>
        rw [hcallee] at he
        cases he
      | none =>
        rw [hcallee] at he
        cases he
        exact .of rfl

/-- Where the class of exceptions is known, no failure is raised again. -/
theorem uneventful_classForFailure (e : EvalError) (hs : s.session.KnowsException) :
    Uneventful n (classForFailure e) s ∧ (classForFailure e).run n s = (.value exceptionDef, s) := by
  have hfound : (classForFailure e).run n s = (.value exceptionDef, s) := by
    show classForFailure e (evaluator n) s = _
    rw [classForFailure_apply, show s.session.classes.find? exceptionClass = some exceptionDef from hs]
    rfl
  refine ⟨⟨fun _ _ => by rw [classForFailure_apply, classForFailure_apply], ?_, fun _ h => ?_⟩, hfound⟩
  · rw [hfound]
  · rw [hfound] at h
    cases h

end
end Exec

/-! ## The logic -/

/-- From every state in which the class of exceptions is known an evaluation has a chronicle, and ends in such a
state.  Nothing is asked of the code that runs. -/
def Logic.chronicles (n : Nat) : Logic where
  World := Unit
  le _ _ := True
  good _ s := s.session.KnowsException
  holds w x Q := ∀ s : State, s.session.KnowsException →
    ∃ events r, Chronicle n x s events r ∧ r.2.session.KnowsException ∧ ∀ a, r.1 = .value a → Q w a
  code _ _ := True
  cls _ _ := True
  routine _ _ _ := True
  function _ _ _ := True
  enters _ _ := True

namespace Logic

section
variable {n : Nat} {α β : Type} {x : Exec α} {Q : Unit → α → Prop} {w : Unit}

theorem chronicles_uneventful (hx : ∀ s : State, s.session.KnowsException →
    Uneventful n x s ∧ (x.run n s).2.session.KnowsException ∧ ∀ a, (x.run n s).1 = .value a → Q w a) :
    (chronicles n).holds w x Q :=
  fun s hs => ⟨_, _, .uneventful (hx s hs).1, (hx s hs).2⟩

/-- A step after which the same classes are known. -/
theorem chronicles_keeps (hx : ∀ s : State, s.session.KnowsException → Uneventful n x s)
    (hclasses : ∀ s, (x.run n s).2.session.classes = s.session.classes) : (chronicles n).Keeps x := by
  refine fun _ => chronicles_uneventful fun s hs => ⟨hx s hs, ?_, fun _ _ => trivial⟩
  unfold Session.KnowsException
  rw [hclasses]
  exact hs

theorem chronicles_bind {f : α → Exec β} {Q' : Unit → β → Prop} (hx : (chronicles n).holds w x Q)
    (hf : ∀ w', (chronicles n).le w w' → ∀ a, Q w' a → (chronicles n).holds w' (f a) Q') :
    (chronicles n).holds w (x >>= f) Q' := by
  intro s hs
  obtain ⟨events, ⟨a | g | k, t⟩, hchronicle, ht, hQ⟩ := hx s hs
  · obtain ⟨events', r, hchronicle', hr⟩ := hf w trivial a (hQ a rfl) t ht
    exact ⟨_, r, hchronicle.next hchronicle', hr⟩
  · exact ⟨events, _, hchronicle.signal, ht, fun _ h => by cases h⟩
  · exact ⟨events, _, hchronicle.halted, ht, fun _ h => by cases h⟩

theorem chronicles_asCall {x : Exec Value} (hx : (chronicles n).KeepsAt w x) (name : String) :
    (chronicles n).KeepsAt w (asCall name x) := by
  intro s hs
  cases hpush : s.session.calls.push name with
  | error e => exact ⟨_, _, .refused hpush, hs, fun _ _ => trivial⟩
  | ok calls =>
    obtain ⟨events, r, hchronicle, hr, -⟩ := hx (s.withCalls calls) hs
    exact ⟨_, _, .call hpush hchronicle, hr, fun _ _ => trivial⟩

theorem chronicles_handle {take : Signal → Option (Exec α)} (hx : (chronicles n).KeepsAt w x)
    (htake : ∀ g y, take g = some y → (chronicles n).KeepsAt w y) :
    (chronicles n).KeepsAt w (handle x take) := by
  intro s hs
  obtain ⟨events, ⟨a | g | k, t⟩, hchronicle, ht, -⟩ := hx s hs
  · exact ⟨events, _, hchronicle.passes fun _ h => (by cases h), ht, fun _ _ => trivial⟩
  · cases hg : take g with
    | none =>
      refine ⟨events, _, hchronicle.passes fun g' hg' => ?_, ht, fun _ _ => trivial⟩
      cases hg'
      exact hg
    | some y =>
      obtain ⟨events', r, hchronicle', hr, -⟩ := htake g y hg t ht
      exact ⟨_, r, .handles hchronicle hg hchronicle', hr, fun _ _ => trivial⟩
  · exact ⟨events, _, hchronicle.passes fun _ h => (by cases h), ht, fun _ _ => trivial⟩

end

theorem coreRules_chronicles (n : Nat) : (chronicles n).CoreRules where
  step _ _ h hcalls hfresh := chronicles_uneventful fun s hs =>
    ⟨uneventful_step (hcalls s) (hfresh s), State.knowsException_congr hs (h s hs).1, (h s hs).2⟩
  framed {_ _ _ before _ _} hx hpassing s hs := by
    have hbefore := State.knowsException_congr hs (hpassing.core_before s)
    obtain ⟨events, r, hchronicle, hr, -⟩ := hx (before s) hbefore
    exact ⟨events, _, hchronicle.framed hpassing,
      State.knowsException_congr hr (hpassing.core_after s r), fun _ _ => trivial⟩

theorem rules_chronicles (n : Nat) : (chronicles n).Rules where
  weaken h hQ s hs := by
    obtain ⟨events, r, hchronicle, hr, hvalue⟩ := h s hs
    exact ⟨events, r, hchronicle, hr, fun a ha => hQ _ a (hvalue a ha)⟩
  step _ _ h hfresh := chronicles_uneventful fun s hs =>
    ⟨uneventful_step (State.calls_of_kernel (h s hs).1) (hfresh s),
      State.knowsException_congr hs (State.core_of_kernel (h s hs).1), (h s hs).2⟩
  bind := chronicles_bind
  framed hx htransparent := (coreRules_chronicles n).framed hx htransparent.toPassing
  asCall hx name := chronicles_asCall hx name
  handle hx _ htake := chronicles_handle hx (htake _ trivial)

theorem lenient_chronicles (n : Nat) : (chronicles n).Lenient where
  le _ _ := trivial
  code _ _ := trivial
  cls _ _ := trivial
  routine _ _ _ := trivial
  enters _ _ := trivial

theorem worldLaws_chronicles (n : Nat) : (chronicles n).WorldLaws :=
  (lenient_chronicles n).worldLaws fun _ _ _ _ => id

theorem stateLaws_chronicles (n : Nat) : (chronicles n).StateLaws :=
  (lenient_chronicles n).stateLaws (fun _ _ _ _ _ _ _ => trivial) fun _ _ _ _ _ _ _ => trivial

section
variable {n : Nat}

/-- A step that gives a value and leaves the live calls and the classes as they are. -/
theorem chronicles_value {α : Type} {x : Exec α}
    (halone : ∀ (eval eval' : Node → Nat → State → Outcome Value × State) s,
      x (.untraced n eval) s = x (.untraced n eval') s)
    (h : ∀ s, (∃ a, (x.run n s).1 = .value a) ∧ (x.run n s).2.session.calls = s.session.calls ∧
      (x.run n s).2.session.classes = s.session.classes) : (chronicles n).Keeps x := by
  refine chronicles_keeps (fun s _ => ⟨fun _ _ => halone _ _ s, (h s).2.1, fun e he => ?_⟩) fun s => (h s).2.2
  obtain ⟨⟨a, ha⟩, -⟩ := h s
  cases ha.symm.trans he

theorem chronicles_entering {ps : List Param} {args : List Value} :
    (chronicles n).Keeps (entering ps args) :=
  chronicles_value (fun _ _ _ => rfl) fun _ => ⟨⟨_, rfl⟩, rfl, rfl⟩

theorem chronicles_enterNode : (chronicles n).Keeps enterNode := by
  refine chronicles_keeps (fun _ _ => uneventful_enterNode) fun s => ?_
  show (enterNode (evaluator n) s).2.session.classes = _
  rw [enterNode_apply]
  split
  · rfl
  · split <;> rfl

theorem chronicles_throwing (v : Value) : (chronicles n).Keeps (throwing v) := by
  refine chronicles_keeps (fun _ _ => uneventful_throwing v) fun s => ?_
  show (throwing v (evaluator n) s).2.session.classes = _
  rw [throwing_apply]

theorem chronicles_resolveCall (site : Nat) (name : String) (argc : Nat) :
    (chronicles n).Keeps (resolveCall site name argc) := by
  refine chronicles_keeps (fun _ _ => uneventful_resolveCall site name argc) fun s => ?_
  show (resolveCall site name argc (evaluator n) s).2.session.classes = _
  rw [resolveCall_apply]
  cases remembered site s with
  | some callee => rfl
  | none => cases s.session.catalog.callee? name argc <;> rfl

theorem chronicles_classForFailure (e : EvalError) (w : Unit) :
    (chronicles n).holds w (classForFailure e) fun _ _ => True := by
  refine chronicles_uneventful fun s hs => ?_
  obtain ⟨hstep, hrun⟩ := uneventful_classForFailure (n := n) e hs
  refine ⟨hstep, ?_, fun _ _ => trivial⟩
  rw [hrun]
  exact hs

theorem chronicles_defineClass (d : ClassDecl Node) : (chronicles n).Keeps (do
    let s ← ofExcept (← session fun s => s.defineClass d)
    modifySession fun _ => s) := by
  refine fun _ => chronicles_uneventful fun s hs => ⟨uneventful_defineClass d, ?_, fun _ _ => trivial⟩
  simp only [Exec.run, bind_apply, session]
  cases hdefined : s.session.defineClass d with
  | error e => exact hs
  | ok t => exact hs.defineClass hdefined

end

theorem lawful_chronicles (n : Nat) : (chronicles n).Lawful where
  toWorldLaws := worldLaws_chronicles n
  toCodeLaws := (lenient_chronicles n).codeLaws
  toStateLaws := stateLaws_chronicles n
  toRules := rules_chronicles n
  fuel := chronicles_value (fun _ _ _ => rfl) fun _ => ⟨⟨_, rfl⟩, rfl, rfl⟩
  enterNode := chronicles_enterNode
  entering _ := chronicles_entering
  mark := chronicles_value (fun _ _ _ => rfl) fun _ => ⟨⟨_, rfl⟩, rfl, rfl⟩
  newObject _ _ := chronicles_value (fun _ _ _ => rfl) (fun _ => ⟨⟨_, rfl⟩, rfl, rfl⟩) _
  newCoroutine _ _ _ := chronicles_value (fun _ _ _ => rfl) (fun _ => ⟨⟨_, rfl⟩, rfl, rfl⟩) _
  restart _ := chronicles_value (fun _ _ _ => rfl) fun _ => ⟨⟨_, rfl⟩, rfl, rfl⟩
  resumed := (coreRules_chronicles n).resumed (worldLaws_chronicles n) (stateLaws_chronicles n)
    (rules_chronicles n) fun _ => chronicles_entering
  newCallable _ _ := chronicles_value (fun _ _ _ => rfl) (fun _ => ⟨⟨_, rfl⟩, rfl, rfl⟩) _
  addFunction _ := chronicles_value (fun _ _ _ => rfl) (fun _ => ⟨⟨_, rfl⟩, rfl, rfl⟩) _
  defineClass {_ d} _ := chronicles_defineClass d _
  reserve _ w := chronicles_value (fun _ _ _ => rfl) (fun _ => ⟨⟨_, rfl⟩, rfl, rfl⟩) w
  resolveCall _ := chronicles_resolveCall _ _ _ _
  throwing := chronicles_throwing
  classForFailure := chronicles_classForFailure

/-- Every node has a chronicle, from every state in which the class of exceptions is known and with every
bound. -/
theorem ready_chronicles (n : Nat) : (chronicles n).Ready where
  toLawful := lawful_chronicles n
  eval := by
    -- with a bound of `n + 1` the nodes inside a node are evaluated with a bound of `n`
    induction n with
    | zero => exact fun _ c s hs => ⟨[], _, .bound, hs, fun _ _ => trivial⟩
    | succ n ih =>
      intro _ e _ c s hs
      have K : (chronicles n).Ready := ⟨lawful_chronicles n, ih⟩
      have hnode : (chronicles n).Keeps (evalNode e c) := fun _ =>
        K.next K.enterNode fun _ _ _ => keeps_dispatch K trivial c
      obtain ⟨events, r, hchronicle, hr⟩ := hnode () s hs
      exact ⟨events, r, .node hchronicle, hr⟩

end Logic
end TreeScript
