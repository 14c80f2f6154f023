import TreeScript.Proofs.Logic.Basic
import TreeScript.Proofs.Storage

/-
# Logics that look at the core alone

Resuming a coroutine changes what state it is in and where it goes on, of which the core shows nothing.  A
logic whose rules for steps and for what stands around an evaluation ask for no more than that the core stays
as it is has the rule for resuming from them.
-/

namespace TreeScript

open Exec

/-! ## Coroutines in the core -/

section
variable {s : State} {i : Nat}

/-- A coroutine that is started from the same. -/
theorem core_setCoroutine {c : Coroutine} (hparams : c.params = (s.heap.coroutine i).params)
    (hargs : c.args = (s.heap.coroutine i).args) (hbody : c.body = (s.heap.coroutine i).body) :
    (s.withHeap (s.heap.setCoroutine i c)).core = s.core := by
  have hstarts : (s.withHeap (s.heap.setCoroutine i c)).core.starts = s.core.starts := by
    funext j
    show (((s.heap.coroutines.setIfInBounds i c).getD j default).params,
        ((s.heap.coroutines.setIfInBounds i c).getD j default).args,
        ((s.heap.coroutines.setIfInBounds i c).getD j default).body) =
      ((s.heap.coroutine j).params, (s.heap.coroutine j).args, (s.heap.coroutine j).body)
    rw [getD_setIfInBounds]
    split
    · rename_i hij
      rw [← hij.1, hparams, hargs, hbody]
    · rfl
  show { s.core with starts := (s.withHeap (s.heap.setCoroutine i c)).core.starts } = s.core
  rw [hstarts]

end

namespace Exec

/-- What becomes of a coroutine when its body ends or is left by a `yield`, in its own stacks. -/
def stopCoroutine (i : Nat) : Outcome Value × State → Outcome Value × State
  | (.signal (.yieldValue v frames), t) => (.value v, suspendCoroutine i frames t)
  | (o, t) => (settled o, finishCoroutine i t)

theorem untilYield_eq_framed (i : Nat) (x : Exec Value) :
    untilYield i x = framed id (fun _ => stopCoroutine i) x := by
  funext ev s
  unfold untilYield
  show _ = stopCoroutine i (x ev s)
  generalize x ev s = r
  rcases r with ⟨_ | (_ | _ | _ | _ | _ | _) | _, t⟩ <;> rfl

theorem passing_stopCoroutine (i : Nat) : Passing id fun _ => stopCoroutine i where
  core_before _ := rfl
  core_after _ r := by
    rcases r with ⟨_ | (_ | _ | _ | _ | _ | _) | _, t⟩ <;> exact core_setCoroutine rfl rfl rfl
  fatal _ r := by rcases r with ⟨_ | (_ | _ | _ | _ | _ | _) | _, t⟩ <;> rfl
  calls_before _ := rfl
  calls_after _ r := by rcases r with ⟨_ | (_ | _ | _ | _ | _ | _) | _, t⟩ <;> rfl
  failure _ r e h := by
    rcases r with ⟨_ | (_ | _ | _ | _ | _ | _) | _, t⟩ <;> cases h
    exact ⟨e, rfl, .same⟩
  thrown _ r v h := by
    rcases r with ⟨_ | (_ | _ | _ | _ | _ | _) | _, t⟩ <;> cases h
    rfl

end Exec

namespace Logic

/-- The rules for steps and for what stands around an evaluation, where only the core and the live calls
matter. -/
structure CoreRules (L : Logic) : Prop where
  step : ∀ {w} {α : Type} (f : State → Outcome α × State) {Q : L.World → α → Prop},
    (∀ s, L.good w s → (f s).2.core = s.core ∧ ∀ a, (f s).1 = .value a → Q w a) →
    (∀ s, (f s).2.session.calls = s.session.calls) → (∀ s, (f s).1.Fresh) → L.holds w (fun _ s => f s) Q
  framed : ∀ {w} {α β : Type} {before : State → State}
    {after : State → Outcome β × State → Outcome α × State} {x : Exec β}, L.KeepsAt w x →
    Passing before after → L.KeepsAt w (framed before after x)

/-! ## The rule for resuming -/

variable {L : Logic} {w : L.World}

/-- What a coroutine was started from, it is resumed from. -/
theorem CoreRules.begin (R : L.CoreRules) (hstate : L.StateLaws) (w : L.World) (i : Nat) :
    L.holds w (beginCoroutine i) fun w' begun => ∀ c ∈ begun,
      L.code w' c.1.body ∧ L.enters c.1.params c.1.args := by
  -- beginning asks no evaluator
  let any : Evaluator := .untraced 0 fun _ _ s => (.halted .outOfFuel, s)
  have heq : beginCoroutine i = fun _ s => beginCoroutine i any s := by
    funext ev s
    rw [beginCoroutine_apply, beginCoroutine_apply]
  rw [heq]
  have hcalls : ∀ s, (beginCoroutine i any s).2.session.calls = s.session.calls := by
    intro s
    rw [beginCoroutine_apply]
    rcases (s.heap.coroutine i).begin? with _ | _ | _ <;> rfl
  have hfresh : ∀ s, (beginCoroutine i any s).1.Fresh := by
    intro s
    rw [beginCoroutine_apply]
    cases hbegin : (s.heap.coroutine i).begin? with
    | error e => exact failsWith_begin? _ e hbegin
    | ok begun => cases begun <;> trivial
  refine R.step (beginCoroutine i any) (fun s hs => ?_) hcalls hfresh
  rw [beginCoroutine_apply]
  cases hbegin : (s.heap.coroutine i).begin? with
  | error e => exact ⟨rfl, fun _ h => by cases h⟩
  | ok begun =>
    cases begun with
    | none =>
      refine ⟨rfl, fun _ h => ?_⟩
      cases h
      exact fun _ h => by cases h
    | some p =>
      obtain ⟨frames, running⟩ := p
      obtain ⟨-, rfl⟩ := Coroutine.begin?_eq_some hbegin
      refine ⟨core_setCoroutine rfl rfl rfl, fun _ h c hc => ?_⟩
      cases h
      cases hc
      exact hstate.coroutine hs i

/-- A coroutine runs its body, where this ends as it should. -/
theorem CoreRules.resumed (R : L.CoreRules) (hworld : L.WorldLaws) (hstate : L.StateLaws)
    (hrules : L.Rules) (hentering : ∀ {ps args}, L.enters ps args → L.Keeps (entering ps args))
    (i : Nat) (hbody : ∀ w', L.le w w' → ∀ (c : Coroutine) (frames : List ResumeFrame),
      L.code w' c.body → L.KeepsAt w' (withResume frames (withFrame .barrier (eval c.body c.scope)))) :
    L.KeepsAt w (beginCoroutine i >>= runCoroutine i) := by
  refine hrules.bind (R.begin hstate w i) fun w₁ h₁ begun hbegun => ?_
  unfold runCoroutine
  split
  · exact hrules.step (fun s => (.value Value.null, s)) (fun _ _ => ⟨rfl, fun _ _ => trivial⟩) fun _ => trivial
  · rename_i c frames
    obtain ⟨hcode, henters⟩ := hbegun _ rfl
    refine hrules.bind (hentering henters w₁) fun w₂ h₂ _ _ => ?_
    rw [untilYield_eq_framed]
    have hinside := hbody w₂ (hworld.le_trans h₁ h₂) c frames (hworld.code_mono h₂ hcode)
    exact R.framed hinside (passing_stopCoroutine i)

end Logic
end TreeScript
