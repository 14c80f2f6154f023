import TreeScript.Proofs.Logic.Core
import TreeScript.Proofs.Logic.Nodes
import TreeScript.Proofs.Simulation.Moments

/-
# Two evaluators beside each other

What a logic takes for granted of the state and of the code in it are its `Grounds`.  Over any grounds there
is the logic of two evaluators that end alike in good states (`Grounds.alike`): its judgement is that from a
good state the two give the same outcome and the same state, which is good again.  All rules for putting
evaluations together hold of it if the core tells whether a state is good.
-/

namespace TreeScript

open Exec

/-- What is taken for granted of the state and of the code in it. -/
structure Grounds where
  World : Type
  le : World → World → Prop
  good : World → State → Prop
  code : World → Node → Prop
  cls : World → ClassDef → Prop
  routine : World → Routine → Nat → Prop
  function : World → Function → Nat → Prop
  enters : List Param → List Value → Prop

namespace Grounds

variable (G : Grounds)

/-- Two evaluations end alike, in a good state of a world in which no less is known, and give a value of a
kind if they give one. -/
structure Ends {α : Type} (Q : G.World → α → Prop) (w w' : G.World) (r r' : Outcome α × State) :
    Prop where
  grown : G.le w w'
  eq : r = r'
  good : G.good w' r.2
  value : ∀ a, r.1 = .value a → Q w' a

/-- The logic of two evaluators that end alike in good states. -/
def alike (ev ev' : Evaluator) : Logic where
  World := G.World
  le := G.le
  good := G.good
  holds w x Q := ∀ s, G.good w s → ∃ w', G.Ends Q w w' (x ev s) (x ev' s)
  code := G.code
  cls := G.cls
  routine := G.routine
  function := G.function
  enters := G.enters

/-- What is known stays known, and the core tells whether a state is good. -/
structure Firm : Prop where
  le_refl : ∀ w, G.le w w
  le_trans : ∀ {w₁ w₂ w₃}, G.le w₁ w₂ → G.le w₂ w₃ → G.le w₁ w₃
  congr : ∀ {w s t}, t.core = s.core → G.good w s → G.good w t

variable {G} {ev ev' : Evaluator} {w : G.World} {α β : Type}

/-- A step that asks no evaluator. -/
theorem alike_step {x : Exec α} {Q : G.World → α → Prop} (hx : ∀ s, x ev s = x ev' s)
    (h : ∀ s, G.good w s → ∃ w', G.le w w' ∧ G.good w' (x ev s).2 ∧
      ∀ a, (x ev s).1 = .value a → Q w' a) : (G.alike ev ev').holds w x Q := by
  intro s hs
  obtain ⟨w', hgrown, hgood, hvalue⟩ := h s hs
  exact ⟨w', hgrown, hx s, hgood, hvalue⟩

variable (F : G.Firm)
include F

/-- A step that asks no evaluator, and after which nothing else is known. -/
theorem alike_keeps {x : Exec α} (hx : ∀ s, x ev s = x ev' s)
    (h : ∀ s, G.good w s → G.good w (x ev s).2) : (G.alike ev ev').KeepsAt w x :=
  alike_step hx fun s hs => ⟨w, F.le_refl w, h s hs, fun _ _ => trivial⟩

theorem alike_bind {x : Exec α} {f : α → Exec β} {Q : G.World → α → Prop} {Q' : G.World → β → Prop}
    (hx : (G.alike ev ev').holds w x Q)
    (hf : ∀ w', G.le w w' → ∀ a, Q w' a → (G.alike ev ev').holds w' (f a) Q') :
    (G.alike ev ev').holds w (x >>= f) Q' := by
  intro s hs
  obtain ⟨w₁, hgrown, heq, hgood, hvalue⟩ := hx s hs
  rw [bind_apply, bind_apply, ← heq]
  generalize x ev s = r at hgood hvalue
  obtain ⟨a | g | k, t⟩ := r
  · obtain ⟨w₂, h₂⟩ := hf w₁ hgrown a (hvalue a rfl) t hgood
    exact ⟨w₂, F.le_trans hgrown h₂.grown, h₂.eq, h₂.good, h₂.value⟩
  · exact ⟨w₁, hgrown, rfl, hgood, fun _ h => by cases h⟩
  · exact ⟨w₁, hgrown, rfl, hgood, fun _ h => by cases h⟩

theorem alike_asCall {x : Exec Value} (hx : (G.alike ev ev').KeepsAt w x) (name : String) :
    (G.alike ev ev').KeepsAt w (asCall name x) := by
  intro s hs
  rw [asCall_apply, asCall_apply]
  cases s.session.calls.push name with
  | error e => exact ⟨w, F.le_refl w, rfl, hs, fun _ _ => trivial⟩
  | ok calls =>
    obtain ⟨w', h⟩ := hx (s.withCalls calls) (F.congr (s := s) rfl hs)
    have hend : G.good w' (endCall (x ev (s.withCalls calls))).2 :=
      F.congr (s := (x ev (s.withCalls calls)).2) rfl h.good
    exact ⟨w', h.grown, congrArg endCall h.eq, hend, fun _ _ => trivial⟩

theorem alike_handle {x : Exec α} {take : Signal → Option (Exec α)}
    (hx : (G.alike ev ev').KeepsAt w x)
    (htake : ∀ w', G.le w w' → ∀ g y, take g = some y → (G.alike ev ev').KeepsAt w' y) :
    (G.alike ev ev').KeepsAt w (handle x take) := by
  intro s hs
  obtain ⟨w₁, hgrown, heq, hgood, -⟩ := hx s hs
  unfold handle
  rw [← heq]
  generalize x ev s = r at hgood
  obtain ⟨a | g | k, t⟩ := r
  · exact ⟨w₁, hgrown, rfl, hgood, fun _ _ => trivial⟩
  · dsimp only
    cases hg : take g with
    | none => exact ⟨w₁, hgrown, rfl, hgood, fun _ _ => trivial⟩
    | some y =>
      obtain ⟨w₂, h₂⟩ := htake w₁ hgrown g y hg t hgood
      exact ⟨w₂, F.le_trans hgrown h₂.grown, h₂.eq, h₂.good, h₂.value⟩
  · exact ⟨w₁, hgrown, rfl, hgood, fun _ _ => trivial⟩

theorem coreRules_alike : (G.alike ev ev').CoreRules where
  step f _ h _ _ := alike_step (fun _ => rfl) fun s hs =>
    ⟨_, F.le_refl _, F.congr (h s hs).1 hs, (h s hs).2⟩
  framed {_ _ _ before _ _} hx hpassing s hs := by
    obtain ⟨w', h⟩ := hx (before s) (F.congr (hpassing.core_before s) hs)
    exact ⟨w', h.grown, congrArg _ h.eq, F.congr (hpassing.core_after s _) h.good, fun _ _ => trivial⟩

theorem rules_alike : (G.alike ev ev').Rules where
  weaken h hQ s hs := by
    obtain ⟨w', h⟩ := h s hs
    exact ⟨w', h.grown, h.eq, h.good, fun a ha => hQ _ a (h.value a ha)⟩
  step f _ h _ := alike_step (fun _ => rfl) fun s hs =>
    ⟨_, F.le_refl _, F.congr (State.core_of_kernel (h s hs).1) hs, (h s hs).2⟩
  bind := alike_bind F
  framed hx htransparent := (coreRules_alike F).framed hx htransparent.toPassing
  asCall := alike_asCall F
  handle hx _ htake := alike_handle F hx htake

theorem alike_throwing (v : Value) : (G.alike ev ev').Keeps (throwing v) := by
  refine fun _ => alike_keeps F (fun s => by rw [throwing_apply, throwing_apply]) fun s hs => ?_
  rw [throwing_apply]
  exact hs

theorem alike_classForFailure (hstate : (G.alike ev ev').StateLaws) (e : EvalError) (w : G.World) :
    (G.alike ev ev').holds w (classForFailure e) G.cls := by
  refine alike_step (fun s => by rw [classForFailure_apply, classForFailure_apply]) fun s hs => ?_
  rw [classForFailure_apply]
  refine ⟨w, F.le_refl w, hs, fun cls h => ?_⟩
  exact hstate.findClass hs (eq_some_of_classOrFailure h)

omit F in
/-- In good states an alarm is not noticed that is silent there. -/
theorem ready_observed {alarm : State → Bool} {react : Exec Unit}
    (hlawful : ∀ n, (G.alike (evaluator n) (observed alarm react n)).Lawful)
    (halarm : ∀ w s, G.good w s → alarm s = false) (n : Nat) :
    (G.alike (evaluator n) (observed alarm react n)).Ready where
  toLawful := hlawful n
  eval := by
    -- with a bound of `n + 1` the nodes inside a node are evaluated with a bound of `n`
    induction n with
    | zero => exact fun _ c s hs => ⟨_, (hlawful 0).le_refl _, rfl, hs, fun _ _ => trivial⟩
    | succ n ih =>
      have K : (G.alike (evaluator n) (observed alarm react n)).Ready := ⟨hlawful n, ih⟩
      intro w e he c s hs
      have hleft : eval e c (evaluator (n + 1)) s =
          (enterNode >>= fun _ => dispatch e c) (evaluator n) s := rfl
      have hright : eval e c (observed alarm react (n + 1)) s =
          (enterNode >>= fun _ => watching alarm react (dispatch e c)) (observed alarm react n) s := rfl
      have hwatched : (G.alike (evaluator n) (observed alarm react n)).KeepsAt w
          (enterNode >>= fun _ => dispatch e c) :=
        K.next K.enterNode fun w₁ h₁ _ => Logic.keeps_dispatch K (K.code_mono h₁ he) c
      rw [hleft, hright]
      obtain ⟨w₁, hentered⟩ := K.enterNode w s hs
      obtain ⟨w₂, hends⟩ := hwatched s hs
      refine ⟨w₂, hends.grown, hends.eq.trans ?_, hends.good, hends.value⟩
      rw [bind_apply, bind_apply, ← hentered.eq]
      have hgood := hentered.good
      have hgrown := hentered.grown
      generalize enterNode (evaluator n) s = r at hgood
      obtain ⟨⟨⟩ | g | k, t⟩ := r
      · obtain ⟨w₃, hnode⟩ := Logic.keeps_dispatch K (K.code_mono hgrown he) c t hgood
        have hafter := halarm w₃ _ hnode.good
        rw [hnode.eq] at hafter
        exact (watching_apply (watch_of_silent (halarm w₁ t hgood) react _)
          (watch_of_silent hafter react _)).symm
      · rfl
      · rfl

end Grounds
end TreeScript
