import TreeScript.Proofs.Arity.Lawful

/-
# An evaluator that checks

Two things are checked nowhere when a program runs: that what a call site resolves to is a function of the
session by the name that stands there, for as many arguments; and that a body begins with as many arguments
as it has parameters.

The evaluator here does check (`checked`): at every call it looks the function up in the catalog of the
session and calls it only if it answers the label of the call, and it counts the arguments of every body
that begins.  Where a check fails an alarm goes off, which may do anything.  From sound states it never
does: evaluations end with it as they end without (`ready_checked`).
-/

namespace TreeScript

open Exec

/-! ## The evaluator that checks -/

section
variable (alarm : State → Outcome Unit × State)

namespace Exec

/-- The function in a slot of the session's catalog, if it answers a label. -/
def registered (label : CallLabel) (slot : Nat) : Exec Function := do
  match ← session fun s => (s.catalog.get? slot).filter (·.answers label) with
  | some f => return f
  | none => do
    fun _ s => alarm s
    halt .outOfFuel

/-- Call what a site resolves to, if it is a function of the session that answers the label. -/
def checkedCall (site : Nat) (name : String) (args : List Node) (scope : Nat) (tail : Bool) :
    Exec Value := do
  let (slot, _) ← resolveCall site name args.length
  let f ← registered alarm (name, args.length) slot
  applyCallee slot f args scope tail

/-- What a node does where calls are checked. -/
def checkedDispatch (node : Node) (scope : Nat) : Exec Value :=
  match node with
  | .call site name args => checkedCall alarm site name args scope false
  | .returnWith (some (.call site name args)) => do
    enterNode
    returning (checkedCall alarm site name args scope true)
  | node => dispatch node scope

/-- Evaluate with another trace. -/
def tracing {α : Type} (trace : List Param → List Value → State → Outcome Unit × State) (x : Exec α) :
    Exec α :=
  fun ev s => x { ev with trace := trace } s

end Exec

/-- The trace that counts arguments. -/
def counting (params : List Param) (args : List Value) (s : State) : Outcome Unit × State :=
  if params.length = args.length then (.value (), s) else alarm s

/-- The evaluator that checks calls and counts the arguments of bodies. -/
def checked (fuel : Nat) : Evaluator where
  fuel := fuel
  eval := evaluateBy (fun e c => tracing (counting alarm) (checkedDispatch alarm e c)) fuel
  trace := counting alarm

end

/-- The alarm goes off where a site is shared by two calls, which numbering prevents. -/
example :
    let host := (Host.empty.serve (fun _ => evaluator 10) [.start Host.bare, .prepare 1,
      .addFunction 0 (Host.constantly "f" 1), .evaluate 0 (.call 0 "f" [])]).2
    (match (host.answer (fun _ => checked (fun s => (.halted .heldContainer, s)) 10)
        (.evaluate 0 (.call 0 "g" []))).1 with
      | .halted .heldContainer => true
      | _ => false) = true := by
  decide +kernel

/-! ## Evaluations -/

section
variable {alarm : State → Outcome Unit × State} {labels : List CallLabel} {owner : Nat}
variable {before : CallSites} {s : State}

theorem twins_checked (alarm : State → Outcome Unit × State) (fuel : Nat) :
    (evaluator fuel).Twins (checked alarm fuel) where
  fuel := rfl
  silent _ h := ⟨rfl, if_pos h⟩

/-- The function that a site has resolved to passes the check. -/
theorem checkedCall_of_sound (hs : s.Sound owner before labels) {site : Nat} {name : String}
    {args : List Node} (hcall : Labelled labels (.call site name args)) (scope : Nat) (tail : Bool)
    (ev : Evaluator) :
    checkedCall alarm site name args scope tail ev s = evalCall site name args scope tail ev s := by
  obtain ⟨-, hcallee⟩ := hs.resolveCall hcall.call ev
  rw [evalCall_eq]
  unfold checkedCall
  rw [bind_apply, bind_apply]
  generalize resolveCall site name args.length ev s = r at hcallee
  obtain ⟨callee | g | k, t⟩ := r
  · obtain ⟨hf, hanswers⟩ := hcallee callee rfl
    have hregistered : registered alarm (name, args.length) callee.1 ev t = (.value callee.2, t) := by
      unfold registered
      simp only [bind_apply, session]
      dsimp only at hf
      rw [hf, Option.filter_some, if_pos hanswers]
      rfl
    dsimp only
    rw [bind_apply, hregistered]
  · rfl
  · rfl

/-- In a sound state no check fails at a node. -/
theorem checkedDispatch_of_sound (hs : s.Sound owner before labels) {e : Node} (he : Labelled labels e)
    (scope : Nat) (ev : Evaluator) : checkedDispatch alarm e scope ev s = dispatch e scope ev s := by
  unfold checkedDispatch
  split
  · exact checkedCall_of_sound hs he scope false ev
  · rename_i site name args
    have hcall : Labelled labels (.call site name args) := he.part List.mem_cons_self
    have hreturn : dispatch (.returnWith (some (.call site name args))) scope =
        enterNode >>= fun _ => returning (evalCall site name args scope true) := rfl
    have henter : (Logic.arity owner before ev ev).Keeps enterNode := Logic.arity_enterNode
    obtain ⟨labels', hentered⟩ := henter labels s hs
    rw [hreturn, bind_apply, bind_apply]
    have hsound := hentered.sound
    have hlabelled := hcall.mono hentered.grown
    generalize enterNode ev s = r at hsound
    obtain ⟨⟨⟩ | g | k, t⟩ := r
    · show returning (checkedCall alarm site name args scope true) ev t = returning _ ev t
      unfold returning
      rw [bind_apply, bind_apply, checkedCall_of_sound hsound hlabelled]
    · rfl
    · rfl
  · rfl

/-- Evaluating labelled nodes in sound states sets off no alarm. -/
theorem ready_checked (owner : Nat) (before : CallSites) (alarm : State → Outcome Unit × State)
    (fuel : Nat) : (Logic.arity owner before (evaluator fuel) (checked alarm fuel)).Ready where
  toLawful := Logic.lawful_arity (twins_checked alarm fuel)
  eval := by
    -- with a bound of `n + 1` the nodes inside a node are evaluated with a bound of `n`
    induction fuel with
    | zero => exact fun _ c s hs => ⟨_, List.prefix_refl _, rfl, hs, fun _ _ => trivial⟩
    | succ fuel ih =>
      intro labels e he c s hs
      have K : (Logic.arity owner before (evaluator fuel) (checked alarm fuel)).Ready :=
        ⟨Logic.lawful_arity (twins_checked alarm fuel), ih⟩
      have hleft : eval e c (evaluator (fuel + 1)) s =
          (enterNode >>= fun _ => dispatch e c) (evaluator fuel) s := rfl
      have hright : eval e c (checked alarm (fuel + 1)) s =
          (enterNode >>= fun _ => checkedDispatch alarm e c) (checked alarm fuel) s := rfl
      obtain ⟨labels₁, hentered⟩ := K.enterNode labels s hs
      rw [hleft, hright, bind_apply, bind_apply, ← hentered.eq]
      have hsound := hentered.sound
      have he₁ := he.mono hentered.grown
      generalize enterNode (evaluator fuel) s = r at hsound
      obtain ⟨⟨⟩ | g | k, t⟩ := r
      · obtain ⟨labels₂, hnode⟩ := Logic.keeps_dispatch K he₁ c t hsound
        dsimp only
        rw [checkedDispatch_of_sound hsound he₁]
        exact ⟨labels₂, hentered.grown.trans hnode.grown, hnode.eq, hnode.sound, hnode.value⟩
      · exact ⟨labels₁, hentered.grown, rfl, hsound, fun _ h => by cases h⟩
      · exact ⟨labels₁, hentered.grown, rfl, hsound, fun _ h => by cases h⟩

/-- A top-level evaluation of a labelled node. -/
theorem keeps_evaluate {ev ev' : Evaluator} (K : (Logic.arity owner before ev ev').Ready) {e : Node}
    (he : Labelled labels e) : (Logic.arity owner before ev ev').KeepsAt labels (evaluate e) :=
  Logic.keeps_evaluate K (Logic.arity_modifySession fun _ => rfl) he

/-- A top-level call of a function. -/
theorem keeps_callFunction {ev ev' : Evaluator} (K : (Logic.arity owner before ev ev').Ready)
    (name : String) (args : List Value) :
    (Logic.arity owner before ev ev').Keeps (callFunction name args) :=
  Logic.keeps_callFunction K name args (Logic.arity_modifySession fun _ => rfl)

end
end TreeScript
