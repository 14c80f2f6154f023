import TreeScript.Proofs.Simulation.Node
import TreeScript.Session.Host

/-
# Top-level evaluations, side by side

A top-level evaluation runs in no body that could leave its scope, so that whatever unwinds to it
leaves all that was known.
-/

namespace TreeScript
namespace Simulation

open Exec

variable {S : Simulation} {ev ev' : Evaluator} {w : S.World}
variable (L : S.Lawful)
include L

/-- The text of an exception reads its field `message`, whose scope is related. -/
theorem agrees_exceptionText (v : Value) :
    S.Agrees ev ev' w (heap fun h => exceptionText h v) (heap fun h => exceptionText h v) := by
  refine .gets L.toOrdered fun {s s'} hs => ?_
  have A := L.alike hs
  cases v with
  | object i =>
    have hslot := L.lookupLocal "message" hs (L.scope_of_pinned (L.fields i hs))
    simp only [exceptionText, hslot]
    cases s'.heap.lookupLocal (s'.heap.object i).fields "message" with
    | some slot => simp only [A.valueAt, A.render]
    | none => simp only [A.objectLabel]
  | _ => exact A.render _

theorem agrees_settleTop (hw : S.closed w) {x y : Exec Value} (h : S.Agrees ev ev' w x y) :
    S.Agrees ev ev' w (settleTop x) (settleTop y) := by
  refine .handle (Run.settle L.toOrdered hw h) fun hg hrel => ?_
  cases hg with
  | throwValue v hunwound =>
    have hfail : ∀ w₁, S.Agrees ev ev' w₁
        (do fail (.uncaughtException (← ofChecked (← heap fun h => exceptionText h v))) :
          Exec Value)
        (do fail (.uncaughtException (← ofChecked (← heap fun h => exceptionText h v)))) := fun _ =>
      .bind L.toOrdered (agrees_exceptionText L v) fun _ r _ =>
        .bind L.toOrdered (.ofChecked L.toOrdered r) fun _ _ _ => .fail L.toOrdered _
    exact Or.inr ⟨_, _, rfl, rfl, (hfail _ _ _ hrel).mono L.toOrdered (L.le_of_closed hw hunwound)⟩
  | error | breakLoop | continueLoop | yieldValue | returnValue => exact Or.inl ⟨rfl, rfl⟩

variable (R : S.Ready ev ev')
include R

theorem agrees_evaluateIn (hw : S.closed w) {c c' : Nat} (hc : S.scope w c c') (e : Node)
    (hfits : ∀ e, S.fits w e) : S.Agrees ev ev' w (evaluateIn e c) (evaluateIn e c') := by
  intro s s' hs
  obtain ⟨w₁, hle, hrel⟩ := L.forget (L.resetMeter hs) hfits
  have hends := agrees_settleTop L (L.closed_mono hle hw)
    (R.eval (L.fits_mono (L.unwound_of_le hle) (hfits e)) (L.scope_mono hle hc)) _ _ hrel
  exact hends.mono L.toOrdered hle

theorem agrees_evaluate (hw : S.closed w) (e : Node) (hfits : ∀ e, S.fits w e) :
    S.Agrees ev ev' w (evaluate e) (evaluate e) := by
  refine .seq L.toOrdered (.root L) fun w₁ root root' hle hroot => ?_
  exact agrees_evaluateIn L R (L.closed_mono hle hw) (L.scope_of_pinned hroot) e fun e =>
    L.fits_mono (L.unwound_of_le hle) (hfits e)

theorem agrees_callFunction (hw : S.closed w) (name : String) (args : List Value)
    (hfits : ∀ e, S.fits w e) :
    S.Agrees ev ev' w (callFunction name args) (callFunction name args) := by
  have hcalls : S.Permits w Node.isCall := ⟨_, hfits (.call 0 "" []), rfl⟩
  intro s s' hs
  refine Run.seq L.toOrdered (A := fun w' a b => a = b ∧ w' = w ∧
      ∀ slot f, a = some (slot, f) → S.Allows w f) ?_ (fun w₁ a b h₁ hab => ?_) s s' hs
  · intro s s' hs
    refine .value (L.le_refl w) hs ⟨?_, rfl, fun slot f h => ?_⟩
    · exact congrArg (·.callee? name args.length) (L.catalog hs)
    · exact L.allows hs hcalls (Catalog.get?_of_callee? h)
  · obtain ⟨rfl, rfl, hallows⟩ := hab
    cases a with
    | none => exact .fail L.toOrdered _
    | some callee =>
      obtain ⟨slot, f⟩ := callee
      refine .bind L.toOrdered (.modifySession L fun hs => L.resetMeter hs) fun w₂ _ h₂ => ?_
      refine .seq L.toOrdered (.root L) fun w₃ root root' h₃ hroot => ?_
      have h := L.le_trans h₂ h₃
      refine agrees_settleTop L (L.closed_mono h hw) ?_
      have hu := L.unwound_of_le h
      exact agrees_invoke L R (hcalls.mono L.toOrdered hu) (some slot) args (L.scope_of_pinned hroot)
        ((hallows slot f rfl).mono L hu)

omit L R in
/-- An evaluation on which the two sides of every lawful simulation agree at the top level. -/
def Fair (x : Exec Value) : Prop :=
  ∀ (S : Simulation), S.Lawful → ∀ {ev ev' : Evaluator}, S.Ready ev ev' → ∀ {w : S.World},
    S.closed w → (∀ e, S.fits w e) → S.Agrees ev ev' w x x

omit L R in
theorem fair_evaluate (e : Node) : Fair (evaluate e) :=
  fun _ L _ _ R _ hw hfits => agrees_evaluate L R hw e hfits

omit L R in
theorem fair_callFunction (name : String) (args : List Value) : Fair (callFunction name args) :=
  fun _ L _ _ R _ hw hfits => agrees_callFunction L R hw name args hfits

end Simulation

/-! ## Jumps at the top level -/

namespace Exec

/-- No jump leaves a top-level evaluation. -/
theorem jumpless_settleTop (x : Exec Value) : Jumpless (settleTop x) := by
  intro ev s g h
  have hsettled := jumpless_settle x ev s
  unfold settleTop handle at h
  generalize settle x ev s = r at h hsettled
  rcases r with ⟨v | k | k, t⟩
  · cases h
  · have hk := hsettled k rfl
    cases k with
    | throwValue v =>
      refine Jumpless.bind (jumpless_gets _) (fun r => ?_) ev t g h
      refine Jumpless.bind (fun ev s g h => ?_) fun _ => fun ev s g h => ?_
      · rcases r with (e | _) | _ <;> cases h
        rfl
      · cases h
        rfl
    | error e =>
      cases h
      rfl
    | _ => cases hk
  · cases h

theorem jumpless_evaluate (e : Node) : Jumpless (evaluate e) :=
  (jumpless_gets _).bind fun _ => Jumpless.bind (fun _ _ _ h => by cases h) fun _ =>
    jumpless_settleTop _

theorem jumpless_callFunction (name : String) (args : List Value) :
    Jumpless (callFunction name args) := by
  refine (jumpless_gets _).bind fun callee => ?_
  cases callee with
  | none =>
    intro ev s g h
    cases h
    rfl
  | some callee =>
    exact Jumpless.bind (fun _ _ _ h => by cases h) fun _ => (jumpless_gets _).bind fun _ =>
      jumpless_settleTop _

end Exec
end TreeScript
