import TreeScript.Proofs.Isolation.Expressions

/-
# Statements, alone and in company

Both runs are on their way back to the same `yield`, over frames that are the same up to the numbers of their
scopes; so a statement goes on in the same place in both.  All values that are compared here are equal, since
the parts of statements give primitive values.
-/

namespace TreeScript
namespace Isolation

open Exec

variable {origin : Nat} {b b' : State} {ev ev' : Evaluator} {w : World}

/-! ## The way back -/

theorem run_nextFrame :
    (company origin b b').Run ev ev' w (fun w' : World => Option.Rel w'.SameFrame) nextFrame nextFrame := by
  intro s s' hs
  have hway := hs.way
  generalize hresume : s.session.resume = frames at hway
  generalize hresume' : s'.session.resume = frames' at hway
  cases hway with
  | nil =>
    simp only [nextFrame, hresume, hresume']
    exact .value (.refl _ w) hs .none
  | cons hf hrest =>
    simp only [nextFrame, hresume, hresume']
    exact .value (.refl _ w) { hs with way := hrest } (.some hf)

/-- Frames of one kind fail alike. -/
theorem agrees_wrongFrame {f f' : ResumeFrame} (hf : w.SameFrame f f') (kind : String) {α : Type} :
    (company origin b b').Agrees ev ev' w (wrongFrame f kind : Exec α) (wrongFrame f' kind) := by
  have hname : f.kindName = f'.kindName := by cases hf.1 <;> rfl
  unfold wrongFrame
  rw [hname]
  exact .fail ordered _

/-- A frame is added when a `yield` leaves a statement. -/
theorem run_leavingFrame {A : World → Value → Value → Prop} {f f' : ResumeFrame} (hf : w.SameFrame f f')
    {x y : Exec Value} (h : (company origin b b').Run ev ev' w A x y) :
    (company origin b b').Run ev ev' w A (leavingFrame f x) (leavingFrame f' y) := by
  intro s s' hs
  exact (h s s' hs).passedBy fun hle hway => .cons (hf.mono (World.Le.scope hle)) hway

section
variable (R : Ready origin b b' ev ev')
include R

theorem agrees_eval (e : Node) {c c' : Nat} (hc : w.scope c c') :
    (company origin b b').Agrees ev ev' w (eval e c) (eval e c') :=
  (R.eval e hc).agrees

theorem agrees_fuel : (company origin b b').Agrees ev ev' w fuel fuel :=
  (run_detached R.fuel .fuel).agrees

/-! ## Blocks and branches -/

theorem agrees_runStatements {c c' : Nat} (hc : w.scope c c') (i : Nat) (last : Value) (es : List Node) :
    (company origin b b').Agrees ev ev' w (runStatements c i last es) (runStatements c' i last es) := by
  induction es generalizing w i last with
  | nil => exact .pure ordered last
  | cons e es ih =>
    have hfirst : (company origin b b').Agrees ev ev' w (leavingFrame (.inBlock i) (eval e c))
        (leavingFrame (.inBlock i) (eval e c')) :=
      run_leavingFrame ⟨.inBlock i, trivial⟩ (agrees_eval R e hc)
    exact .bind ordered hfirst fun w₁ v h => ih (h.scope hc) (i + 1) v

theorem agrees_evalBlock {c c' : Nat} (hc : w.scope c c') (es : List Node) :
    (company origin b b').Agrees ev ev' w (evalBlock es c) (evalBlock es c') := by
  refine .seq ordered run_nextFrame fun w₁ f f' h hf => ?_
  cases hf with
  | none => exact agrees_runStatements R (h.scope hc) 0 .null es
  | some hf =>
    obtain ⟨halike, hconfined⟩ := hf
    cases halike with
    | inBlock i => exact agrees_runStatements R (h.scope hc) i .null (es.drop i)
    | _ => exact agrees_wrongFrame ⟨by constructor <;> assumption, hconfined⟩ _

theorem agrees_chooseArm {c c' : Nat} (hc : w.scope c c') (i : Nat) (arms : List (Node × Node)) :
    (company origin b b').Agrees ev ev' w (chooseArm c i arms) (chooseArm c' i arms) := by
  induction arms generalizing w i with
  | nil => exact .pure ordered none
  | cons arm arms ih =>
    refine .bindOn ordered (R.eval arm.1 hc) fun w₁ v h₁ hv => ?_
    refine .bind ordered (run_toBool R hv) fun w₂ a h₂ => ?_
    cases a with
    | true => exact .pure ordered (some i)
    | false => exact ih ((h₁.trans h₂).scope hc) (i + 1)

theorem agrees_runArm {c c' : Nat} (hc : w.scope c c') (arms : List (Node × Node)) (otherwise : Option Node)
    (arm : Option Nat) :
    (company origin b b').Agrees ev ev' w (runArm arms otherwise arm c) (runArm arms otherwise arm c') := by
  rw [runArm_eq, runArm_eq]
  cases armBody arms otherwise arm with
  | some e => exact run_leavingFrame ⟨.inBranch arm hc, trivial⟩ (agrees_eval R e hc)
  | none => exact .fail ordered _

theorem agrees_evalBranch {c c' : Nat} (hc : w.scope c c') (arms : List (Node × Node))
    (otherwise : Option Node) :
    (company origin b b').Agrees ev ev' w (evalBranch arms otherwise c) (evalBranch arms otherwise c') := by
  refine .seq ordered run_nextFrame fun w₁ f f' h₁ hf => ?_
  cases hf with
  | none =>
    refine .bind ordered (agrees_chooseArm R (h₁.scope hc) 0 arms) fun w₂ arm h₂ => ?_
    split
    · exact .pure ordered Value.null
    · refine .seq ordered (run_newScope ((h₁.trans h₂).scope hc)) fun w₃ inner inner' _ hinner => ?_
      exact agrees_runArm R hinner arms otherwise arm
  | some hf =>
    obtain ⟨halike, hconfined⟩ := hf
    cases halike with
    | inBranch arm hinner => exact agrees_runArm R hinner arms otherwise arm
    | _ => exact agrees_wrongFrame ⟨by constructor <;> assumption, hconfined⟩ _

/-! ## Loops -/

theorem agrees_runRound {c c' : Nat} (hc : w.scope c c') {f f' : ResumeFrame} (hf : w.SameFrame f f')
    (body : Node) :
    (company origin b b').Agrees ev ev' w (runRound f body c) (runRound f' body c') := by
  intro s s' hs
  exact (run_leavingFrame hf (agrees_eval R body hc) s s' hs).roundEnd

omit R in
theorem agrees_afterRound {x y : Exec Value} (r : Option Value)
    (h : (company origin b b').Agrees ev ev' w x y) :
    (company origin b b').Agrees ev ev' w (afterRound x r) (afterRound y r) := by
  cases r with
  | some v => exact .pure ordered v
  | none => exact h

theorem agrees_whileRounds (cond body : Node) (fuel : Nat) {w : World} {c c' : Nat} (hc : w.scope c c') :
    (company origin b b').Agrees ev ev' w (whileRounds cond body c fuel none)
        (whileRounds cond body c' fuel none) ∧
      ∀ inner inner', w.scope inner inner' →
        (company origin b b').Agrees ev ev' w (whileRounds cond body c fuel (some inner))
          (whileRounds cond body c' fuel (some inner')) := by
  -- a round ends the loop or goes on with the next one, for which the bound is smaller
  induction fuel generalizing w with
  | zero => exact ⟨.halt ordered _, fun _ _ _ => .halt ordered _⟩
  | succ fuel ih =>
    have hround : ∀ {w₁ : World} {inner inner'}, w.Le b'.heap w₁ → w₁.scope inner inner' →
        (company origin b b').Agrees ev ev' w₁ (whileRounds cond body c (fuel + 1) (some inner))
          (whileRounds cond body c' (fuel + 1) (some inner')) := by
      intro w₁ inner inner' h₁ hinner
      rw [whileRounds_resumed, whileRounds_resumed]
      refine .bind ordered (agrees_runRound R hinner ⟨.inWhile hinner, trivial⟩ body) fun w₂ r h₂ => ?_
      exact agrees_afterRound r (ih ((h₁.trans h₂).scope hc)).1
    refine ⟨?_, fun inner inner' hinner => hround (.refl _ w) hinner⟩
    rw [whileRounds_begin, whileRounds_begin]
    refine .bindOn ordered (R.eval cond hc) fun w₁ v h₁ hv => ?_
    refine .bind ordered (run_toBool R hv) fun w₂ a h₂ => ?_
    cases a with
    | false => exact .pure ordered _
    | true =>
      have h : w.Le b'.heap w₂ := h₁.trans h₂
      refine .seq ordered (run_newScope (h.scope hc)) fun w₃ inner inner' h₃ hinner => ?_
      exact hround (h.trans h₃) hinner

theorem agrees_evalWhile {c c' : Nat} (hc : w.scope c c') (cond body : Node) :
    (company origin b b').Agrees ev ev' w (evalWhile cond body c) (evalWhile cond body c') := by
  refine .seq ordered run_nextFrame fun w₁ f f' h₁ hf => ?_
  cases hf with
  | none =>
    exact .bind ordered (agrees_fuel R) fun w₂ fuel h₂ =>
      (agrees_whileRounds R cond body fuel ((h₁.trans h₂).scope hc)).1
  | some hf =>
    obtain ⟨halike, hconfined⟩ := hf
    cases halike with
    | inWhile hinner =>
      exact .bind ordered (agrees_fuel R) fun w₂ fuel h₂ =>
        (agrees_whileRounds R cond body fuel ((h₁.trans h₂).scope hc)).2 _ _ (h₂.scope hinner)
    | _ => exact agrees_wrongFrame ⟨by constructor <;> assumption, hconfined⟩ _

section
variable (x : String) (ty : TypeKind) (direction : RangeDirection) (body : Node)

theorem agrees_rangeRounds (stop : Int64) (fuel : Nat) (current : Int64) {w : World} {c c' : Nat}
    (hc : w.scope c c') :
    (company origin b b').Agrees ev ev' w (rangeRounds x ty direction stop body c fuel current none)
        (rangeRounds x ty direction stop body c' fuel current none) ∧
      ∀ inner inner', w.scope inner inner' →
        (company origin b b').Agrees ev ev' w
          (rangeRounds x ty direction stop body c fuel current (some inner))
          (rangeRounds x ty direction stop body c' fuel current (some inner')) := by
  induction fuel generalizing w current with
  | zero => exact ⟨.halt ordered _, fun _ _ _ => .halt ordered _⟩
  | succ fuel ih =>
    -- a round goes on alike whether its scope is new or that of a round that was left by a `yield`
    have hround : ∀ {w₁ : World} {inner inner'}, w.Le b'.heap w₁ → w₁.scope inner inner' →
        (company origin b b').Agrees ev ev' w₁
          (rangeRounds x ty direction stop body c (fuel + 1) current (some inner))
          (rangeRounds x ty direction stop body c' (fuel + 1) current (some inner')) := by
      intro w₁ inner inner' h₁ hinner
      rw [rangeRounds_resumed, rangeRounds_resumed]
      split
      · refine .bind ordered (agrees_runRound R hinner ⟨.inRange current stop hinner, trivial⟩ body) ?_
        intro w₂ r h₂
        refine agrees_afterRound r ?_
        unfold rangeRest
        cases Range.next? direction current with
        | none => exact .pure ordered _
        | some next => exact (ih next ((h₁.trans h₂).scope hc)).1
      · exact .pure ordered _
    refine ⟨?_, fun inner inner' hinner => hround (.refl _ w) hinner⟩
    rw [rangeRounds_begin, rangeRounds_begin]
    split
    · refine .seq ordered (run_newScope hc) fun w₁ inner inner' h₁ hinner => ?_
      have hcurrent : (Value.long current).Primitive := rfl
      refine .bindOn ordered (run_detached R.fuel (detached_coerce hcurrent ty)) fun w₂ v h₂ _ => ?_
      have hinner₂ : World.scope w₂ inner inner' := h₂.scope hinner
      refine .bind ordered (run_declare hinner₂ x ty fun _ => rfl) fun w₃ _ h₃ => ?_
      exact hround (h₁.trans (h₂.trans h₃)) (h₃.scope hinner₂)
    · exact .pure ordered _

theorem agrees_evalRange {c c' : Nat} (hc : w.scope c c') (start stop : Node) :
    (company origin b b').Agrees ev ev' w (evalRange x ty start stop direction body c)
      (evalRange x ty start stop direction body c') := by
  refine .seq ordered run_nextFrame fun w₁ f f' h₁ hf => ?_
  have hc₁ : w₁.scope c c' := h₁.scope hc
  cases hf with
  | none =>
    refine .bindOn ordered (R.eval start hc₁) fun w₂ first h₂ hfirst => ?_
    refine .bindOn ordered (R.eval stop (h₂.scope hc₁)) fun w₃ last h₃ hlast => ?_
    refine .bind ordered (run_detached R.fuel (detached_rangeBound hfirst)).agrees fun w₄ first h₄ => ?_
    refine .bind ordered (run_detached R.fuel (detached_rangeBound hlast)).agrees fun w₅ last h₅ => ?_
    refine .bind ordered (agrees_fuel R) fun w₆ fuel h₆ => ?_
    have h : w₁.Le b'.heap w₆ := h₂.trans (h₃.trans (h₄.trans (h₅.trans h₆)))
    exact (agrees_rangeRounds R x ty direction body last fuel first (h.scope hc₁)).1
  | some hf =>
    obtain ⟨halike, hconfined⟩ := hf
    cases halike with
    | inRange current stop hinner =>
      exact .bind ordered (agrees_fuel R) fun w₂ fuel h₂ =>
        (agrees_rangeRounds R x ty direction body stop fuel current (h₂.scope hc₁)).2 _ _
          (h₂.scope hinner)
    | _ => exact agrees_wrongFrame ⟨by constructor <;> assumption, hconfined⟩ _

end

section
variable (x : String) (body : Node)

/-- Rounds over items. -/
theorem agrees_eachRounds (fuel : Nat) (items : List Value) {w : World} {c c' : Nat} (hc : w.scope c c') :
    (company origin b b').Agrees ev ev' w (eachRounds x body c fuel (.items items) none)
        (eachRounds x body c' fuel (.items items) none) ∧
      ∀ inner inner', w.scope inner inner' →
        (company origin b b').Agrees ev ev' w (eachRounds x body c fuel (.items items) (some inner))
          (eachRounds x body c' fuel (.items items) (some inner')) := by
  -- the items of a round are those that the one before has left
  induction fuel generalizing w items with
  | zero => exact ⟨.halt ordered _, fun _ _ _ => .halt ordered _⟩
  | succ fuel ih =>
    have hround : ∀ {w₁ : World} {inner inner'} (items : List Value), w.Le b'.heap w₁ →
        w₁.scope inner inner' →
        (company origin b b').Agrees ev ev' w₁
          (eachRounds x body c (fuel + 1) (.items items) (some inner))
          (eachRounds x body c' (fuel + 1) (.items items) (some inner')) := by
      intro w₁ inner inner' items h₁ hinner
      rw [eachRounds_resumed, eachRounds_resumed]
      have hf : w₁.SameFrame (.inEach inner (.items items)) (.inEach inner' (.items items)) :=
        ⟨.inEach _ hinner, trivial⟩
      refine .bind ordered (agrees_runRound R hinner hf body) fun w₂ r h₂ => ?_
      exact agrees_afterRound r (ih items ((h₁.trans h₂).scope hc)).1
    refine ⟨?_, fun inner inner' hinner => hround items (.refl _ w) hinner⟩
    rw [eachRounds_begin, eachRounds_begin]
    cases items with
    | nil => exact .pure ordered _
    | cons v rest =>
      have hnext : nextItem (.items (v :: rest)) = pure (some (v, .items rest)) := rfl
      rw [hnext, pure_bind, pure_bind]
      refine .seq ordered (run_newScopeWith hc x v) fun w₁ inner inner' h₁ hinner => ?_
      exact hround rest h₁ hinner

theorem agrees_evalEach {c c' : Nat} (hc : w.scope c c') (iterable : Node) :
    (company origin b b').Agrees ev ev' w (evalEach x iterable body c) (evalEach x iterable body c') := by
  refine .seq ordered run_nextFrame fun w₁ f f' h₁ hf => ?_
  have hc₁ : w₁.scope c c' := h₁.scope hc
  cases hf with
  | none =>
    refine .bindOn ordered (R.eval iterable hc₁) fun w₂ v h₂ hv => ?_
    refine .bindOn ordered (run_detached R.fuel (detached_eachSource hv)) fun w₃ source h₃ hsource => ?_
    obtain ⟨items, rfl⟩ := hsource
    refine .bind ordered (agrees_fuel R) fun w₄ fuel h₄ => ?_
    have h : w₁.Le b'.heap w₄ := h₂.trans (h₃.trans h₄)
    exact (agrees_eachRounds R x body fuel items (h.scope hc₁)).1
  | some hf =>
    obtain ⟨halike, hconfined⟩ := hf
    cases halike with
    | inEach source hinner =>
      cases source with
      | items items =>
        exact .bind ordered (agrees_fuel R) fun w₂ fuel h₂ =>
          (agrees_eachRounds R x body fuel items (h₂.scope hc₁)).2 _ _ (h₂.scope hinner)
      | coroutine i => exact hconfined.elim
    | _ => exact agrees_wrongFrame ⟨by constructor <;> assumption, hconfined⟩ _

end

/-! ## Jumps -/

theorem agrees_evalOptional {c c' : Nat} (hc : w.scope c c') (e : Option Node) :
    (company origin b b').Agrees ev ev' w (evalOptional e c) (evalOptional e c') := by
  cases e with
  | some e => exact agrees_eval R e hc
  | none => exact .pure ordered _

theorem agrees_evalYield {c c' : Nat} (hc : w.scope c c') (e : Option Node) :
    (company origin b b').Agrees ev ev' w (evalYield e c) (evalYield e c') := by
  refine .seq ordered run_nextFrame fun w₁ f f' h₁ hf => ?_
  cases hf with
  | none =>
    refine .bind ordered (agrees_evalOptional R (h₁.scope hc) e) fun w₂ v _ => ?_
    exact .raise ordered fun w₃ h₃ => .yieldValue v h₃ (.cons ⟨.atYield, trivial⟩ .nil)
  | some hf =>
    obtain ⟨halike, hconfined⟩ := hf
    cases halike with
    | atYield => exact .pure ordered _
    | _ => exact agrees_wrongFrame ⟨by constructor <;> assumption, hconfined⟩ _

/-! ## Exceptions -/

/-- A try, as long as no handler begins. -/
theorem agrees_runTry {c c' : Nat} (hc : w.scope c c') (body : Node) (x : String) (handler : Node) :
    (company origin b b').Agrees ev ev' w (runTryWith leaveConfines body x handler c)
      (runTryWith (pure ()) body x handler c') := by
  refine .handle (run_leavingFrame ⟨.inBody, trivial⟩ (agrees_eval R body hc)) fun hg hrel => ?_
  -- a handler that begins stops the left side
  cases hg with
  | throwValue v h => exact Or.inr ⟨_, _, rfl, rfl, .stopped _ _ trivial⟩
  | error e h =>
    cases hcatch : e.isCatchable with
    | false =>
      simp only [hcatch]
      exact Or.inl ⟨rfl, rfl⟩
    | true =>
      simp only [hcatch, if_true]
      exact Or.inr ⟨_, _, rfl, rfl, .stopped _ _ trivial⟩
  | breakLoop | continueLoop | yieldValue | returnValue => exact Or.inl ⟨rfl, rfl⟩

theorem agrees_evalTry {c c' : Nat} (hc : w.scope c c') (body : Node) (x : String) (handler : Node) :
    (company origin b b').Agrees ev ev' w (evalTryWith leaveConfines body x handler c)
      (evalTry body x handler c') := by
  rw [evalTry_eq]
  refine .seq ordered run_nextFrame fun w₁ f f' h₁ hf => ?_
  have hbegin : (company origin b b').Agrees ev ev' w₁ (runTryWith leaveConfines body x handler c)
      (runTryWith (pure ()) body x handler c') := agrees_runTry R (h₁.scope hc) body x handler
  cases hf with
  | none => exact hbegin
  | some hf =>
    obtain ⟨halike, hconfined⟩ := hf
    cases halike with
    | inBody => exact hbegin
    | inHandler _ => exact hconfined.elim
    | _ => exact agrees_wrongFrame ⟨by constructor <;> assumption, hconfined⟩ _

end

end Isolation
end TreeScript
