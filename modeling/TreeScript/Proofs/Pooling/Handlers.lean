import TreeScript.Proofs.Pooling.Laws
import TreeScript.Proofs.Simulation.Moments
import TreeScript.Proofs.Simulation.View

/-
# Handlers in calls that have left their scope

A call written as a result leaves the scope of its caller before it begins, though the caller may go
on when the call fails: a handler around the `return` then runs in a scope that may be in use by
another call.  The watched evaluator stops where this would happen.  As long as it does not stop, it
does what the evaluator does, and then using scopes again does not show.
-/

namespace TreeScript

/-- Whether an outcome says that the evaluation has stopped at its bound. -/
def Outcome.isOutOfFuel {α : Type} : Outcome α → Bool
  | .halted .outOfFuel => true
  | _ => false

namespace Pooling

open Exec

/-- Whether the call that runs has left its scope early. -/
def hasLeft (s : State) : Bool :=
  match s.session.frames with
  | .pooled _ _ true _ :: _ => true
  | _ => false

/-- Stop in a call that has left its scope early. -/
def staying : Exec Unit := fun _ s => if hasLeft s then (.halted .outOfFuel, s) else (.value (), s)

/-- What a node does, if no handler may begin in a call that has left its scope early. -/
def watchedDispatch (node : Node) (scope : Nat) : Exec Value :=
  match node with
  | .tryCatch body name handler => evalTryWith staying body name handler scope
  | node => dispatch node scope

/-- The evaluator with a bound that stops where a handler begins in a call that has left its scope
early. -/
def watched (fuel : Nat) : Evaluator := .untraced fuel (evaluateBy watchedDispatch fuel)

theorem watchedDispatch_of_ne {node : Node} (h : ∀ body x handler, node ≠ .tryCatch body x handler) :
    watchedDispatch node = dispatch node := by
  funext scope
  unfold watchedDispatch
  split
  · exact absurd rfl (h _ _ _)
  · rfl

/-! ## Guarded handlers -/

/-- What is made of nodes where handlers begin behind a guard, and all else is as in the evaluator. -/
structure Guarded (guard : Exec Unit) (account : Node → Nat → Exec Value) : Prop where
  tryCatch : ∀ body x handler scope,
    account (.tryCatch body x handler) scope = evalTryWith guard body x handler scope
  other : ∀ {e}, (∀ body x handler, e ≠ .tryCatch body x handler) → account e = dispatch e

theorem guarded_dispatch : Guarded (pure ()) dispatch where
  tryCatch body x handler scope := by
    show evalTry body x handler scope = _
    rw [evalTry_eq]
  other _ := rfl

theorem guarded_watchedDispatch : Guarded staying watchedDispatch :=
  ⟨fun _ _ _ _ => rfl, watchedDispatch_of_ne⟩

section
variable {S : Simulation} (L : S.Lawful) {guard guard' : Exec Unit}
variable {account account' : Node → Nat → Exec Value}
include L

/-- Accounts of nodes agree if their guards do. -/
theorem agrees_guarded {ev ev' : Evaluator} (R : S.Ready ev ev') (h : Guarded guard account)
    (h' : Guarded guard' account') (hguard : S.Guards ev ev' guard guard') {w : S.World} {e : Node}
    {c c' : Nat} (he : S.fits w e) (hc : S.scope w c c') :
    S.Agrees ev ev' w (account e c) (account' e c') := by
  by_cases htry : ∃ body x handler, e = .tryCatch body x handler
  · obtain ⟨body, x, handler, rfl⟩ := htry
    rw [h.tryCatch, h'.tryCatch]
    exact Simulation.agrees_evalTryWith L R hguard hc he
  · have hne : ∀ body x handler, e ≠ .tryCatch body x handler := fun body x handler heq =>
      htry ⟨body, x, handler, heq⟩
    rw [h.other hne, h'.other hne]
    exact Simulation.agrees_dispatch L R hc he hne

/-- Evaluators that are watched agree if their guards do and the watches keep the two sides related. -/
theorem ready_guarded (h : Guarded guard account) (h' : Guarded guard' account')
    (hguard : ∀ ev ev', S.Guards ev ev' guard guard') {alarm alarm' : State → Bool}
    {react react' : Exec Unit} (hgoes : GoesOn react)
    (hwatch : ∀ ev ev', S.Watches ev ev' (watch alarm react) (watch alarm' react')) (fuel : Nat) :
    S.Ready (observedBy account alarm react fuel) (observedBy account' alarm' react' fuel) := by
  refine Simulation.ready_observedBy L (goesOn_watch hgoes) hwatch (fun {ev ev' w e c c'} R he hc => ?_) fuel
  exact agrees_guarded L R h h' (hguard ev ev') he hc

/-- Evaluators agree with the watched one if they agree wherever it goes on. -/
theorem ready_watched (hguard : ∀ ev ev', S.Guards ev ev' staying (pure ())) (fuel : Nat) :
    S.Ready (watched fuel) (evaluator fuel) := by
  unfold watched evaluator
  rw [evaluateNode_eq_evaluateBy]
  refine Simulation.ready_evaluateBy L (fun {ev ev' w e c c'} R he hc => ?_) fuel
  exact agrees_guarded L R guarded_watchedDispatch guarded_dispatch (hguard ev ev') he hc

end

/-! ## Beside the evaluator -/

/-- Nothing is required of a state; the second side may have printed something else if this is
allowed. -/
def unread (allowed : Prop) : Invariant := .ofSites (fun _ _ _ => True) True allowed

theorem unread_kept (allowed : Prop) : (unread allowed).Kept :=
  Invariant.SitesKept.kept ⟨fun _ _ => trivial, fun _ _ => trivial, fun _ _ _ _ => trivial⟩ _ _

/-- A call has left its scope early whatever has been printed. -/
theorem guards_unread {allowed : Prop} {guard' : Exec Unit}
    (hguard' : ∀ ev s, hasLeft s = false → guard' ev s = (.value (), s)) (ev ev' : Evaluator) :
    (unread allowed).toSimulation.Guards ev ev' staying guard' := by
  rintro w w' s _ _ ⟨_, o, rfl, _⟩
  cases h : hasLeft s with
  | true =>
    refine Or.inl ⟨trivial, s, ?_⟩
    simp only [staying, h, if_true]
  | false =>
    refine Or.inr ⟨trivial, ?_, hguard' ev' _ h⟩
    simp only [staying, h, Bool.false_eq_true, if_false]

/-- Where evaluators agree, the second does what the first does, as long as this does not stop. -/
theorem unread_ends {allowed : Prop} {x : Exec Value} (hx : Simulation.Fair x) {ev ev' : Evaluator}
    (R : (unread allowed).toSimulation.Ready ev ev') (s : State) :
    (x ev s).1.isOutOfFuel = true ∨
      (x ev s).1 = (x ev' s).1 ∧ (x ev s).2.Beside allowed (x ev' s).2 := by
  have hends := hx _ (unread_kept allowed).lawful R (w := ()) trivial (fun _ => trivial) s s
    (Invariant.rel_self trivial)
  rcases Invariant.of_ends hends with ⟨_, hstop⟩ | ⟨houtcome, _, _, ⟨_, hbeside⟩, _⟩
  · rw [hstop]
    exact Or.inl rfl
  · exact Or.inr ⟨houtcome, hbeside⟩

/-- The watched evaluator does what the evaluator does, as long as it does not stop. -/
theorem watched_eq {x : Exec Value} (hx : Simulation.Fair x) (fuel : Nat) (s : State) :
    (x (watched fuel) s).1.isOutOfFuel = true ∨ x (watched fuel) s = x (evaluator fuel) s := by
  have R := ready_watched (unread_kept False).lawful (guards_unread fun _ _ _ => rfl) fuel
  exact (unread_ends hx R s).imp_right fun h => Prod.ext h.1 (h.2.eq id)

/-! ## Beside the evaluator in which every scope is new -/

/-- A call that has its scope on the left side has it on the right side as well. -/
theorem guards_staying (reserved : Nat → Nat → Prop) (ev ev' : Evaluator) :
    (simulation reserved).Guards ev ev' staying (pure ()) := by
  intro w w' s s' hw hs
  have hrel : Rel reserved w' s s' := hs
  cases h : hasLeft s with
  | true =>
    refine Or.inl ⟨trivial, s, ?_⟩
    simp only [staying, h, if_true]
  | false =>
    refine Or.inr ⟨?_, ?_, rfl⟩
    · refine ⟨hw.toExtends, hw.frames, fun a ha hd => ?_⟩
      rcases hw.dead a ha hd with hd' | hown
      · exact hd'
      · -- the frame still keeps its scope, which is alive therefore
        have hrunning := hw.frames
        have hframes := hrel.frames
        have hkept := hrel.kept
        unfold World.own? at hown
        generalize w.frames = fs at hrunning hown
        generalize w'.frames = fs' at hrunning hframes hkept
        cases hrunning with
        | nil => cases hown
        | @cons f f' rest hgoes =>
          change f.owned? = some a at hown
          cases hgoes with
          | barrier => cases hown
          | @pooled function scope released retained released' retained' _ _ =>
            cases released' with
            | true =>
              rw [hasLeft, hframes] at h
              cases h
            | false =>
              rcases function with _ | function <;> cases released <;> cases retained <;>
                try cases hown
              exact absurd hd (hkept _ List.mem_cons_self a rfl).1
    · simp only [staying, h, Bool.false_eq_true, if_false]

/-- Where an evaluator that agrees with one in which every scope is new does not stop, using scopes
again does not show. -/
theorem ends_unpooled {reserved : Nat → Nat → Prop} {x : Exec Value} (hx : Simulation.Fair x)
    (hjump : Jumpless x) {ev ev' : Evaluator} (R : (simulation reserved).Ready ev ev') {w : World}
    (hw : w.frames = []) {s s' : State} (hs : Rel reserved w s s') :
    (x ev s).1.isOutOfFuel = true ∨
      (x ev s).1 = (x ev' s').1 ∧ ∃ w', w.Le w' ∧ Rel reserved w' (x ev s).2 (x ev' s').2 := by
  have hclosed : w.own? = none := by
    unfold World.own?
    rw [hw]
    rfl
  have hends := hx (simulation reserved) lawful R (w := w) hclosed (fun _ => trivial) s s' hs
  have hjumps := hjump ev s
  generalize x ev s = p at hends hjumps ⊢
  generalize x ev' s' = q at hends ⊢
  have hle : ∀ {w'}, w.Unwound w' → w.Le w' := fun h => h.le_of_own? hclosed
  cases hends with
  | value hle hrel hab => exact Or.inr ⟨congrArg Outcome.value hab, _, hle, hrel⟩
  | signal hg hrel =>
    right
    cases hg with
    | yieldValue v _ _ => cases hjumps _ rfl
    | breakLoop v h | continueLoop h => exact ⟨rfl, _, h, hrel⟩
    | returnValue v h | throwValue v h | error e h => exact ⟨rfl, _, hle h, hrel⟩
  | halted k h hrel => exact Or.inr ⟨rfl, _, hle h, hrel⟩
  | stopped t r _ => exact Or.inl rfl

/-- Where the watched evaluator does not stop, using scopes again does not show. -/
theorem ends_watched {reserved : Nat → Nat → Prop} {x : Exec Value} (hx : Simulation.Fair x)
    (hjump : Jumpless x) (fuel : Nat) {w : World} (hw : w.frames = []) {s s' : State}
    (hs : Rel reserved w s s') :
    (x (watched fuel) s).1.isOutOfFuel = true ∨
      (x (watched fuel) s).1 = (x (evaluator fuel) s').1 ∧
        ∃ w', w.Le w' ∧ Rel reserved w' (x (watched fuel) s).2 (x (evaluator fuel) s').2 :=
  ends_unpooled hx hjump (ready_watched lawful (guards_staying reserved) fuel) hw hs

end Pooling
end TreeScript
