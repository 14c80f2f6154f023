import TreeScript.Proofs.Isolation.Statements

/-
# Bodies, alone and in company

Where a body stays within its confines, each node does the same in company; by induction on the bound, so does
the whole body.
-/

namespace TreeScript

/-! ## The budget -/

namespace Meter

/-- Meters that have counted the same steps allow the same next one. -/
theorem step_same {m m' : Meter} (hsteps : m.steps = m'.steps) (hbudget : m.budget = m'.budget) :
    m.step.1 = m'.step.1 ∧ m.step.2.steps = m'.step.2.steps := by
  unfold step
  rw [hbudget, hsteps]
  cases m'.budget with
  | none => exact ⟨rfl, hsteps⟩
  | some budget => exact ⟨rfl, rfl⟩

theorem budget_step (m : Meter) : m.step.2.budget = m.budget := by
  unfold step
  cases hbudget : m.budget with
  | none => exact hbudget
  | some budget => rfl

end Meter

namespace Isolation

open Exec

variable {origin : Nat} {b b' : State} {ev ev' : Evaluator} {w : World}

theorem Rel.withMeter {s s' : State} (hs : Rel origin b b' w s s') {m m' : Meter}
    (hsteps : m.steps = m'.steps) (hbudget : m.budget = s.session.meter.budget)
    (hbudget' : m'.budget = s'.session.meter.budget) :
    Rel origin b b' w (s.withMeter m) (s'.withMeter m') := by
  have hkept : ∀ (t : State) (n : Meter), n.budget = t.session.meter.budget →
      (t.withMeter n).conditions = t.conditions := fun t n h =>
    congrArg (Conditions.mk t.session.cancellation t.session.parser?) h
  exact { hs with
    conditions := (hkept s m hbudget).trans (hs.conditions.trans (hkept s' m' hbudget').symm)
    conditions' := (hkept s' m' hbudget').trans hs.conditions'
    steps := hsteps }

/-- What is done at every node. -/
theorem agrees_enterNode : (company origin b b').Agrees ev ev' w enterNode enterNode := by
  intro s s' hs
  have hmarks : s.session.cancellation = s'.session.cancellation :=
    congrArg Conditions.cancellation hs.conditions
  have hbudget : s.session.meter.budget = s'.session.meter.budget := congrArg Conditions.budget hs.conditions
  obtain ⟨hallowed, hsteps⟩ := Meter.step_same hs.steps hbudget
  have hm : s.session.meter.step.2.budget = s.session.meter.budget := s.session.meter.budget_step
  have hm' : s'.session.meter.step.2.budget = s'.session.meter.budget := s'.session.meter.budget_step
  rw [enterNode_apply, enterNode_apply, hmarks]
  split
  · exact .signal (.error _ (.refl _ w)) hs
  · rcases hstep : s.session.meter.step with ⟨r, m⟩
    rcases hstep' : s'.session.meter.step with ⟨r', m'⟩
    rw [hstep] at hallowed hsteps hm
    rw [hstep'] at hallowed hsteps hm'
    cases hallowed
    cases r with
    | error e => exact .signal (.error e (.refl _ w)) (hs.withMeter hsteps hm hm')
    | ok u =>
      have hcounted : Rel origin b b' w (s.withMeter m.countNode) (s'.withMeter m'.countNode) :=
        hs.withMeter hsteps hm hm'
      exact .value (.refl _ w) hcounted rfl

/-! ## Nodes -/

/-- What agrees gives the same value. -/
theorem like_agrees {x y : Exec Value} (h : (company origin b b').Agrees ev ev' w x y) :
    (company origin b b').Run ev ev' w Like x y :=
  h.weaken fun _ _ _ hab _ => hab

theorem run_functionDef (d : FunctionDecl Node) (c c' : Nat) :
    (company origin b b').Run ev ev' w Like (dispatch (.functionDef d) c) (dispatch (.functionDef d) c') := by
  intro s s' hs
  exact .value (.refl _ w) { hs with } fun _ => rfl

section
variable (R : Ready origin b b' ev ev')
include R

theorem run_literals {c c' : Nat} (hc : w.scope c c') :
    (∀ es, (company origin b b').Run ev ev' w Like (dispatch (.listLiteral es) c)
      (dispatch (.listLiteral es) c')) ∧
    ∀ es, (company origin b b').Run ev ev' w Like (dispatch (.mapLiteral es) c)
      (dispatch (.mapLiteral es) c') := by
  constructor
  · intro es
    exact .bindOn ordered (run_evalAll R hc es) fun _ vs _ _ => run_newList vs vs
  · intro es
    exact .bind ordered (run_evalEntries R hc .empty es) fun _ m _ => run_newMap m m

theorem run_jump {c c' : Nat} (hc : w.scope c c') (e : Option Node) (jump : Value → Signal)
    (hjump : ∀ {w : World} v w', w.Le b'.heap w' → (company origin b b').Raised w w' (jump v) (jump v)) :
    (company origin b b').Run ev ev' w Like (do raise (jump (← evalOptional e c)))
      (do raise (jump (← evalOptional e c'))) :=
  .bind ordered (agrees_evalOptional R hc e) fun _ v _ => .raise ordered (hjump v)

theorem run_return {c c' : Nat} (hc : w.scope c c') (e : Option Node) :
    (company origin b b').Run ev ev' w Like (dispatchInside origin (.returnWith e) c)
      (dispatch (.returnWith e) c') := by
  have hjump : ∀ e, (company origin b b').Run ev ev' w Like (returning (evalOptional e c))
      (returning (evalOptional e c')) := fun e =>
    run_jump R hc e .returnValue fun v _ h => .returnValue v h
  cases e with
  | none => exact hjump none
  | some e =>
    cases e with
    | call site name args => exact run_stopped _ _
    | _ => exact hjump (some _)

/-- What a node does, as long as the left run goes on. -/
theorem run_inside {c c' : Nat} (hc : w.scope c c') (e : Node) :
    (company origin b b').Run ev ev' w Like (dispatchInside origin e c) (dispatch e c') := by
  cases e with
  | literal l => exact .give ordered fun _ => rfl
  | template t => exact run_template R hc t
  | var x => exact run_read hc x
  | this => exact run_read hc "this"
  | listLiteral es => exact (run_literals R hc).1 es
  | mapLiteral es => exact (run_literals R hc).2 es
  | lambda params body => exact run_capture _ _
  | declare ty x e => exact run_declareNode R hc ty x e
  | assign x e => exact run_assign R hc x e
  | delete x => exact run_delete hc x
  | constObject cls x e => exact run_constObject R hc cls x e
  | binary op l r => exact run_binary R hc op l r
  | unary op e =>
    exact run_first R (e := .unary op e) rfl hc fun _ v _ hv => like_detached R (detached_applyUnary op hv)
  | ternary cond yes no => exact run_ternary R hc cond yes no
  | index e keys => exact run_index R hc e keys
  | indexAssign e keys new => exact run_indexAssign R hc e keys new
  | field e x => exact run_field R hc e x
  | fieldAssign e x new => exact run_fieldAssign R hc e x new
  | call site name args => exact run_stopped _ _
  | methodCall e name args => exact run_stopped _ _
  | block es => exact like_agrees (agrees_evalBlock R hc es)
  | branch arms otherwise => exact like_agrees (agrees_evalBranch R hc arms otherwise)
  | whileLoop cond body => exact like_agrees (agrees_evalWhile R hc cond body)
  | forRange x ty start stop direction body =>
    exact like_agrees (agrees_evalRange R x ty direction body hc start stop)
  | forEach x e body => exact like_agrees (agrees_evalEach R x body hc e)
  | breakWith e => exact run_jump R hc e .breakLoop fun v _ h => .breakLoop v h
  | continueLoop => exact .raise ordered fun _ h => .continueLoop h
  | returnWith e => exact run_return R hc e
  | yieldWith e => exact like_agrees (agrees_evalYield R hc e)
  | throwValue e =>
    exact run_first R (e := .throwValue e) rfl hc fun _ v _ hv =>
      like_detached R (detached_throw hv fun _ => False)
  | tryCatch body x handler => exact like_agrees (agrees_evalTry R hc body x handler)
  | functionDef d => exact run_functionDef d c c'
  | classDef d => exact run_stopped _ _

/-- The left run stops unless the value is primitive; then it is the same. -/
theorem run_confined {c c' : Nat} (hc : w.scope c c') (e : Node) :
    (company origin b b').AgreesOn ev ev' w (fun _ => Value.Primitive) (dispatchConfined origin e c)
      (dispatch e c') := by
  rw [← bind_pure (dispatch e c')]
  refine .seq ordered (run_inside R hc e) fun w₁ v v' _ hv => ?_
  split
  · next hprimitive =>
    obtain rfl := hv hprimitive
    exact .give ordered ⟨rfl, hprimitive⟩
  · exact run_stopped _ _

end

/-! ## Evaluators -/

/-- The evaluator does in company what the confined one does alone. -/
theorem ready (origin : Nat) (b b' : State) (fuel : Nat) :
    Ready origin b b' (confinedEvaluator origin fuel) (evaluator fuel) := by
  unfold confinedEvaluator evaluator
  rw [evaluateNode_eq_evaluateBy]
  induction fuel with
  | zero => exact ⟨rfl, fun e c c' hc s s' hs => .stopped s _ trivial⟩
  | succ fuel ih =>
    refine ⟨rfl, fun {w} e c c' hc s s' hs => ?_⟩
    exact Simulation.Run.bind ordered agrees_enterNode (fun w₁ _ h => run_confined ih (h.scope hc) e) s s' hs

end Isolation
end TreeScript
