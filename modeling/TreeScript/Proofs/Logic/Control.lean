import TreeScript.Proofs.Logic.Calls

/-
# Statements, in a lawful logic

Blocks, branches, loops, jumps and handlers.  The rounds of a loop run on a bound, and an induction on it
goes through them: a round ends as it should if its body does and the rest of the rounds do, from
whatever is known by then.
-/

namespace TreeScript

open Exec

namespace Logic

variable {L : Logic} {w : L.World}

/-! ## The way back -/

section
variable (K : L.Lawful) {α : Type}
include K

theorem keeps_nextFrame : L.Keeps nextFrame := by
  intro w
  refine K.alone (fun _ _ _ => rfl) (fun ev s _ => ⟨?_, fun _ _ => trivial⟩) fun ev s => ?_
  · unfold nextFrame
    split <;> rfl
  · unfold nextFrame
    split <;> trivial

theorem keeps_wrongFrame (frame : ResumeFrame) (kind : String) :
    L.Keeps (wrongFrame frame kind : Exec α) :=
  K.fail rfl

theorem keeps_leavingFrame {x : Exec Value} (hx : L.KeepsAt w x) (frame : ResumeFrame) :
    L.KeepsAt w (leavingFrame frame x) :=
  K.mapOutcome hx (handing_passedBy frame)

theorem keeps_afterRound {rest : Exec Value} (hrest : L.KeepsAt w rest) (r : Option Value) :
    L.KeepsAt w (afterRound rest r) := by
  cases r with
  | none => exact hrest
  | some v => exact K.pure v w

end

variable (K : L.Ready)
include K

/-! ## Blocks and branches -/

theorem keeps_runStatements (scope i : Nat) (last : Value) {statements : List Node}
    (hcode : ∀ e ∈ statements, L.code w e) : L.KeepsAt w (runStatements scope i last statements) := by
  induction statements generalizing w i last with
  | nil => exact K.pure last w
  | cons e es ih =>
    have hfirst := K.eval (hcode e List.mem_cons_self) scope
    refine K.bind (keeps_leavingFrame K.toLawful hfirst (.inBlock i)) fun w₁ h v _ => ?_
    exact ih (i + 1) v fun e' he' => K.code_mono h (hcode e' (List.mem_cons_of_mem e he'))

theorem keeps_evalBlock {statements : List Node} (scope : Nat) (he : L.code w (.block statements)) :
    L.KeepsAt w (evalBlock statements scope) := by
  have hcode : ∀ e ∈ statements, L.code w e := fun e h => K.part he h
  refine K.next (keeps_nextFrame K.toLawful) fun w₁ h frame => ?_
  split
  · exact keeps_runStatements K scope 0 _ fun e he => K.code_mono h (hcode e he)
  · exact keeps_runStatements K scope _ _ fun e he => K.code_mono h (hcode e (List.mem_of_mem_drop he))
  · exact keeps_wrongFrame K.toLawful _ _ w₁

theorem keeps_chooseArm (scope i : Nat) {arms : List (Node × Node)}
    (hcode : ∀ arm ∈ arms, L.code w arm.1) : L.KeepsAt w (chooseArm scope i arms) := by
  induction arms generalizing w i with
  | nil => exact K.pure none w
  | cons arm arms ih =>
    refine K.bind (K.eval (hcode arm List.mem_cons_self) scope) fun w₁ h₁ v _ => ?_
    refine K.next (keeps_toBool K v) fun w₂ h₂ b => ?_
    split
    · exact K.pure _ w₂
    · refine ih (i + 1) fun arm' harm' => ?_
      exact K.code_mono (K.le_trans h₁ h₂) (hcode arm' (List.mem_cons_of_mem arm harm'))

omit K in
/-- The conditions and bodies of a branch are known. -/
theorem code_branch (K : L.Lawful) {arms : List (Node × Node)} {otherwise : Option Node}
    (he : L.code w (.branch arms otherwise)) :
    (∀ arm ∈ arms, L.code w arm.1 ∧ L.code w arm.2) ∧ ∀ e, otherwise = some e → L.code w e := by
  refine ⟨fun arm harm => ?_, fun e h => K.part he ?_⟩
  · have hparts : ∀ p ∈ [arm.1, arm.2], L.code w p := fun p hp =>
      K.part he (List.mem_append_left _ (List.mem_flatMap.mpr ⟨arm, harm, hp⟩))
    exact ⟨hparts _ List.mem_cons_self, hparts _ (List.mem_cons_of_mem _ List.mem_cons_self)⟩
  · exact List.mem_append_right _ (Option.mem_toList.mpr h)

theorem keeps_runArm {arms : List (Node × Node)} {otherwise : Option Node} (arm : Option Nat)
    (scope : Nat) (he : L.code w (.branch arms otherwise)) :
    L.KeepsAt w (runArm arms otherwise arm scope) := by
  obtain ⟨harms, hotherwise⟩ := code_branch K.toLawful he
  rw [runArm_eq]
  unfold enterArm
  split
  · rename_i e hbody
    refine keeps_leavingFrame K.toLawful (K.eval ?_ scope) _
    cases arm with
    | none => exact hotherwise e hbody
    | some i =>
      obtain ⟨arm, harm, rfl⟩ := Option.map_eq_some_iff.mp hbody
      exact (harms arm (List.mem_of_getElem? harm)).2
  · exact K.fail rfl w

theorem keeps_evalBranch {arms : List (Node × Node)} {otherwise : Option Node} (scope : Nat)
    (he : L.code w (.branch arms otherwise)) : L.KeepsAt w (evalBranch arms otherwise scope) := by
  refine K.next (keeps_nextFrame K.toLawful) fun w₁ h₁ frame => ?_
  have he₁ := K.code_mono h₁ he
  split
  · exact keeps_runArm K _ _ he₁
  · exact keeps_wrongFrame K.toLawful _ _ w₁
  · have hconds : ∀ arm ∈ arms, L.code w₁ arm.1 := fun arm harm =>
      ((code_branch K.toLawful he₁).1 arm harm).1
    refine K.bind (keeps_chooseArm K scope 0 hconds) fun w₂ h₂ arm _ => ?_
    split
    · exact K.pure _ w₂
    · refine K.next (K.make fun _ => rfl) fun w₃ h₃ inner => ?_
      exact keeps_runArm K arm inner (K.code_mono (K.le_trans h₂ h₃) he₁)

/-! ## Loops -/

theorem keeps_runRound (frame : ResumeFrame) {body : Node} (scope : Nat) (hbody : L.code w body) :
    L.KeepsAt w (runRound frame body scope) :=
  K.mapOutcome (keeps_leavingFrame K.toLawful (K.eval hbody scope) frame) handing_roundEnd

theorem keeps_whileRounds {cond body : Node} (scope fuel : Nat) (resumed : Option Nat)
    (hcond : L.code w cond) (hbody : L.code w body) :
    L.KeepsAt w (whileRounds cond body scope fuel resumed) := by
  induction fuel generalizing w resumed with
  | zero => exact K.halt _ w
  | succ fuel ih =>
    have hround : ∀ w₁, L.le w w₁ → ∀ inner,
        L.KeepsAt w₁ (whileRounds cond body scope (fuel + 1) (some inner)) := by
      intro w₁ h₁ inner
      rw [whileRounds_resumed]
      refine K.bind (keeps_runRound K _ inner (K.code_mono h₁ hbody)) fun w₂ h₂ r _ => ?_
      have h := K.le_trans h₁ h₂
      exact keeps_afterRound K.toLawful (ih none (K.code_mono h hcond) (K.code_mono h hbody)) r
    cases resumed with
    | some inner => exact hround w (K.le_refl w) inner
    | none =>
      rw [whileRounds_begin]
      refine K.bind (K.eval hcond scope) fun w₁ h₁ v _ => K.next (keeps_toBool K v) fun w₂ h₂ b => ?_
      split
      · refine K.next (K.make fun _ => rfl) fun w₃ h₃ inner => ?_
        exact hround w₃ (K.le_trans h₁ (K.le_trans h₂ h₃)) inner
      · exact K.pure _ w₂

theorem keeps_evalWhile {cond body : Node} (scope : Nat) (he : L.code w (.whileLoop cond body)) :
    L.KeepsAt w (evalWhile cond body scope) := by
  have hrounds : ∀ w₁, L.le w w₁ → ∀ resumed,
      L.KeepsAt w₁ (do whileRounds cond body scope (← fuel) resumed) := by
    intro w₁ h₁ resumed
    refine K.next K.fuel fun w₂ h₂ fuel => ?_
    have he₂ := K.code_mono (K.le_trans h₁ h₂) he
    exact keeps_whileRounds K scope fuel resumed (K.part he₂ List.mem_cons_self)
      (K.part he₂ (List.mem_cons_of_mem cond List.mem_cons_self))
  refine K.next (keeps_nextFrame K.toLawful) fun w₁ h₁ frame => ?_
  split
  · exact hrounds w₁ h₁ _
  · exact keeps_wrongFrame K.toLawful _ _ w₁
  · exact hrounds w₁ h₁ _

theorem keeps_rangeBound (v : Value) : L.Keeps (rangeBound v) := by
  refine K.seq (keeps_castValue K v .long) fun w => ?_
  split
  · exact K.pure _
  · exact K.seq (K.heap _) fun _ => K.fail rfl

theorem keeps_rangeRounds (name : String) (ty : TypeKind) (direction : RangeDirection) (stop : Int64)
    {body : Node} (scope fuel : Nat) (current : Int64) (resumed : Option Nat)
    (hbody : L.code w body) :
    L.KeepsAt w (rangeRounds name ty direction stop body scope fuel current resumed) := by
  induction fuel generalizing w current resumed with
  | zero => exact K.halt _ w
  | succ fuel ih =>
    have hrest : ∀ w₁, L.le w w₁ →
        L.KeepsAt w₁ (rangeRest name ty direction stop body scope fuel current) := by
      intro w₁ h₁
      unfold rangeRest
      split
      · exact ih _ none (K.code_mono h₁ hbody)
      · exact K.pure _ w₁
    -- a round goes on alike whether its scope is new or that of a round that was left by a `yield`
    have hround : ∀ w₁, L.le w w₁ → ∀ inner, L.KeepsAt w₁
        (rangeRounds name ty direction stop body scope (fuel + 1) current (some inner)) := by
      intro w₁ h₁ inner
      rw [rangeRounds_resumed]
      split
      · refine K.bind (keeps_runRound K _ inner (K.code_mono h₁ hbody)) fun w₂ h₂ r _ => ?_
        exact keeps_afterRound K.toLawful (hrest w₂ (K.le_trans h₁ h₂)) r
      · exact K.pure _ w₁
    cases resumed with
    | some inner => exact hround w (K.le_refl w) inner
    | none =>
      rw [rangeRounds_begin]
      split
      · refine K.next (K.make fun _ => rfl) fun w₁ h₁ inner => ?_
        refine K.next (converts_coerce K _ ty) fun w₂ h₂ v => ?_
        refine K.next (K.modifyHeap fun _ => rfl) fun w₃ h₃ _ => ?_
        exact hround w₃ (K.le_trans h₁ (K.le_trans h₂ h₃)) inner
      · exact K.pure _ w

theorem keeps_evalRange {name : String} {ty : TypeKind} {start stop : Node}
    {direction : RangeDirection} {body : Node} (scope : Nat)
    (he : L.code w (.forRange name ty start stop direction body)) :
    L.KeepsAt w (evalRange name ty start stop direction body scope) := by
  have hparts : ∀ p ∈ [start, stop, body], L.code w p := fun p hp => K.part he hp
  have hrounds : ∀ w₁, L.le w w₁ → ∀ stop current resumed,
      L.KeepsAt w₁ (do rangeRounds name ty direction stop body scope (← fuel) current resumed) := by
    intro w₁ h₁ stop current resumed
    refine K.next K.fuel fun w₂ h₂ fuel => ?_
    refine keeps_rangeRounds K name ty direction stop scope fuel current resumed ?_
    exact K.code_mono (K.le_trans h₁ h₂) (hparts body (by simp))
  refine K.next (keeps_nextFrame K.toLawful) fun w₁ h₁ frame => ?_
  split
  · exact hrounds w₁ h₁ _ _ _
  · exact keeps_wrongFrame K.toLawful _ _ w₁
  · refine K.bind (K.eval (K.code_mono h₁ (hparts start (by simp))) scope) fun w₂ h₂ first _ => ?_
    have h := K.le_trans h₁ h₂
    refine K.bind (K.eval (K.code_mono h (hparts stop (by simp))) scope) fun w₃ h₃ last _ => ?_
    refine K.next (keeps_rangeBound K first) fun w₄ h₄ first => ?_
    refine K.next (keeps_rangeBound K last) fun w₅ h₅ last => ?_
    exact hrounds w₅ (K.le_trans h (K.le_trans h₃ (K.le_trans h₄ h₅))) last first none

theorem keeps_eachSource (v : Value) : L.Keeps (eachSource v) := by
  unfold eachSource
  split
  · exact K.seq (K.heap _) fun _ => K.pure _
  · exact K.seq (K.heap _) fun _ => K.pure _
  · exact K.seq (K.heap _) fun _ => K.pure _
  · exact K.pure _
  · exact K.pure _
  · exact K.seq (K.heap _) fun _ => K.fail rfl

theorem keeps_nextItem (source : EachSource) : L.Keeps (nextItem source) := by
  unfold nextItem
  split
  · exact K.pure _
  · exact K.pure _
  · refine K.seq (K.heap _) fun finished => ?_
    split
    · exact K.pure _
    · exact K.seq (keeps_resumeCoroutine K _) fun _ => K.pure _

theorem keeps_eachRounds (name : String) {body : Node} (scope fuel : Nat) (source : EachSource)
    (resumed : Option Nat) (hbody : L.code w body) :
    L.KeepsAt w (eachRounds name body scope fuel source resumed) := by
  induction fuel generalizing w source resumed with
  | zero => exact K.halt _ w
  | succ fuel ih =>
    have hround : ∀ w₁, L.le w w₁ → ∀ source inner,
        L.KeepsAt w₁ (eachRounds name body scope (fuel + 1) source (some inner)) := by
      intro w₁ h₁ source inner
      rw [eachRounds_resumed]
      refine K.bind (keeps_runRound K _ inner (K.code_mono h₁ hbody)) fun w₂ h₂ r _ => ?_
      have hrest := ih source none (K.code_mono (K.le_trans h₁ h₂) hbody)
      exact keeps_afterRound K.toLawful hrest r
    cases resumed with
    | some inner => exact hround w (K.le_refl w) source inner
    | none =>
      rw [eachRounds_begin]
      refine K.next (keeps_nextItem K source) fun w₁ h₁ item => ?_
      unfold beginItem
      split
      · exact K.pure _ w₁
      · refine K.next (K.make fun _ => rfl) fun w₂ h₂ inner => ?_
        exact hround w₂ (K.le_trans h₁ h₂) _ inner

theorem keeps_evalEach {name : String} {iterable body : Node} (scope : Nat)
    (he : L.code w (.forEach name iterable body)) :
    L.KeepsAt w (evalEach name iterable body scope) := by
  have hbody : L.code w body := K.part he (List.mem_cons_of_mem iterable List.mem_cons_self)
  have hrounds : ∀ w₁, L.le w w₁ → ∀ source resumed,
      L.KeepsAt w₁ (do eachRounds name body scope (← fuel) source resumed) := by
    intro w₁ h₁ source resumed
    refine K.next K.fuel fun w₂ h₂ fuel => ?_
    exact keeps_eachRounds K name scope fuel source resumed (K.code_mono (K.le_trans h₁ h₂) hbody)
  refine K.next (keeps_nextFrame K.toLawful) fun w₁ h₁ frame => ?_
  split
  · exact hrounds w₁ h₁ _ _
  · exact keeps_wrongFrame K.toLawful _ _ w₁
  · have hiterable := K.code_mono h₁ (K.part he List.mem_cons_self)
    refine K.bind (K.eval hiterable scope) fun w₂ h₂ v _ => ?_
    refine K.next (keeps_eachSource K v) fun w₃ h₃ source => ?_
    exact hrounds w₃ (K.le_trans h₁ (K.le_trans h₂ h₃)) source none

/-! ## Jumps -/

theorem keeps_evalOptional {e : Option Node} (scope : Nat) (he : ∀ e', e = some e' → L.code w e') :
    L.KeepsAt w (evalOptional e scope) := by
  cases e with
  | none => exact K.pure _ w
  | some e => exact K.eval (he e rfl) scope

omit K in
theorem keeps_returning (K : L.Lawful) {x : Exec Value} (hx : L.KeepsAt w x) :
    L.KeepsAt w (returning x) :=
  K.last hx fun _ => K.raise trivial

/-- A call that is returned is a node that is entered, though it is not evaluated as one. -/
theorem keeps_evalReturn {value : Option Node} (scope : Nat) (he : L.code w (.returnWith value)) :
    L.KeepsAt w (evalReturn value scope) := by
  have hvalue : ∀ e, value = some e → L.code w e := fun e h => K.part he (Option.mem_toList.mpr h)
  have hother := keeps_returning K.toLawful (keeps_evalOptional K scope hvalue)
  cases value with
  | none => exact hother
  | some e =>
    cases e with
    | call site name args =>
      rw [evalReturn_call]
      refine K.next K.enterNode fun w₁ h₁ _ => ?_
      have hcall := K.code_mono h₁ (hvalue _ rfl)
      have hreturned := keeps_returning K.toLawful (keeps_resolved K hcall scope true)
      simp only [returning, bind_assoc] at hreturned
      exact hreturned
    | _ => exact hother

theorem keeps_evalYield {value : Option Node} (scope : Nat) (he : L.code w (.yieldWith value)) :
    L.KeepsAt w (evalYield value scope) := by
  refine K.next (keeps_nextFrame K.toLawful) fun w₁ h₁ frame => ?_
  split
  · exact K.pure _ w₁
  · exact keeps_wrongFrame K.toLawful _ _ w₁
  · have hvalue : ∀ e, value = some e → L.code w₁ e := fun e h =>
      K.code_mono h₁ (K.part he (Option.mem_toList.mpr h))
    exact K.last (keeps_evalOptional K scope hvalue) fun _ => K.raise (List.cons_ne_nil _ _)

/-! ## Exceptions -/

theorem keeps_evalThrow {value : Node} (scope : Nat) (he : L.code w value) :
    L.KeepsAt w (evalThrow value scope) := by
  rw [evalThrow_eq]
  exact K.last (K.eval he scope) K.throwing

theorem keeps_exceptionFrom (e : EvalError) : L.Keeps (exceptionFrom e) := by
  intro w
  rw [exceptionFrom_eq]
  refine K.bind (K.classForFailure e w) fun w₁ _ cls hcls => ?_
  exact K.settle (keeps_instantiate K hcls fun d hd => K.constructor hcls hd)

theorem keeps_handleException (name : String) {handler : Node} (scope : Nat) (exception : Value)
    (hhandler : L.code w handler) : L.KeepsAt w (handleException name handler scope exception) :=
  K.next (K.make fun _ => rfl) fun _ h inner =>
    keeps_leavingFrame K.toLawful (K.eval (K.code_mono h hhandler) inner) _

/-- A handler takes exceptions of the program and the failures that may be caught. -/
theorem keeps_runTry {body : Node} (name : String) {handler : Node} (scope : Nat)
    (hbody : L.code w body) (hhandler : L.code w handler) :
    L.KeepsAt w (runTry body name handler scope) := by
  refine K.handle (keeps_leavingFrame K.toLawful (K.eval hbody scope) _) ?_ ?_
  · intro e y hy
    dsimp only at hy
    split at hy
    · assumption
    · cases hy
  · intro w₁ h₁ g y hy
    have hhandler₁ := K.code_mono h₁ hhandler
    cases g with
    | throwValue v =>
      cases hy
      exact keeps_handleException K name scope v hhandler₁
    | error e =>
      dsimp only at hy
      split at hy
      · cases hy
        refine K.next (keeps_exceptionFrom K e) fun w₂ h₂ v => ?_
        exact keeps_handleException K name scope v (K.code_mono h₂ hhandler₁)
      · cases hy
    | _ => cases hy

theorem keeps_evalTry {body : Node} {name : String} {handler : Node} (scope : Nat)
    (he : L.code w (.tryCatch body name handler)) :
    L.KeepsAt w (evalTry body name handler scope) := by
  refine K.next (keeps_nextFrame K.toLawful) fun w₁ h₁ frame => ?_
  have he₁ := K.code_mono h₁ he
  have hbody : L.code w₁ body := K.part he₁ List.mem_cons_self
  have hhandler : L.code w₁ handler := K.part he₁ (List.mem_cons_of_mem body List.mem_cons_self)
  split
  · exact keeps_leavingFrame K.toLawful (K.eval hhandler _) _
  · exact keeps_runTry K name scope hbody hhandler
  · exact keeps_runTry K name scope hbody hhandler
  · exact keeps_wrongFrame K.toLawful _ _ w₁

end Logic
end TreeScript
