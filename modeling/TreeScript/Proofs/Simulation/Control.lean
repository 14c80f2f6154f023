import TreeScript.Proofs.Simulation.Calls

/-
# Statements, side by side

Each statement takes its frame off the way back, and adds one when a `yield` leaves it.  Frames of the
two sides lead to the same place in scopes that are related.
-/

namespace TreeScript
namespace Simulation

open Exec

variable {S : Simulation} {ev ev' : Evaluator} {w : S.World}

/-! ## The way back -/

section
variable (L : S.Lawful)
include L

theorem SameFrame.mono {w' : S.World} {f f' : ResumeFrame} (h : S.SameFrame w f f')
    (hle : S.le w w') : S.SameFrame w' f f' :=
  ResumeFrame.Alike.mono (fun hc => L.scope_mono hle hc) h

theorem run_nextFrame (htakes : S.Permits w Node.takesFrame) :
    S.Run ev ev' w
      (fun w' a b => (a = none ∧ b = none) ∨
        ∃ f f', a = some f ∧ b = some f' ∧ S.SameFrame w' f f')
      nextFrame nextFrame := by
  intro s s' hs
  rcases L.nextFrame hs htakes with ⟨h, h'⟩ | ⟨f, f', rest, rest', w', h, h', hle, hf, hrel⟩
  · simp only [nextFrame, h, h']
    exact .value (L.le_refl w) hs (Or.inl ⟨rfl, rfl⟩)
  · simp only [nextFrame, h, h']
    exact .value hle hrel (Or.inr ⟨f, f', rfl, rfl, hf⟩)

theorem agrees_wrongFrame {α : Type} {f f' : ResumeFrame} (hf : S.SameFrame w f f') (kind : String) :
    S.Agrees ev ev' w (wrongFrame f kind : Exec α) (wrongFrame f' kind) := by
  have hname : f.kindName = f'.kindName := by cases hf <;> rfl
  unfold wrongFrame
  rw [hname]
  exact .fail L.toOrdered _

theorem agrees_leavingFrame (hstage : S.Permits w Node.isStatement) {x y : Exec Value}
    {f f' : ResumeFrame} (hf : S.SameFrame w f f') (hne : f ≠ .atYield)
    (h : S.Agrees ev ev' w x y) :
    S.Agrees ev ev' w (leavingFrame f x) (leavingFrame f' y) := by
  intro s s' hs
  refine (h s s' hs).passedBy fun hle hway => ?_
  exact L.way_cons (hstage.mono L.toOrdered (L.unwound_of_le hle)) (hf.mono L hle) hne hway

end

variable (L : S.Lawful) (R : S.Ready ev ev')
include L R

/-! ## Blocks and branches -/

theorem agrees_runStatements (hstage : S.Permits w Node.isStatement) {c c' : Nat}
    (hc : S.scope w c c') (i : Nat) (last : Value) {es : List Node} (hes : ∀ e ∈ es, S.fits w e) :
    S.Agrees ev ev' w (runStatements c i last es) (runStatements c' i last es) := by
  induction es generalizing w i last with
  | nil => exact .pure L.toOrdered last
  | cons e es ih =>
    refine .bind L.toOrdered (agrees_leavingFrame L hstage (.inBlock i) nofun
      (R.eval (hes e List.mem_cons_self) hc)) fun w₁ v h => ?_
    have hu := L.unwound_of_le h
    exact ih (hstage.mono L.toOrdered hu) (L.scope_mono h hc) (i + 1) v fun e he =>
      L.fits_mono hu (hes e (List.mem_cons_of_mem _ he))

theorem agrees_evalBlock {c c' : Nat} (hc : S.scope w c c') {es : List Node}
    (hblock : S.fits w (.block es)) :
    S.Agrees ev ev' w (evalBlock es c) (evalBlock es c') := by
  have hstage : S.Permits w Node.isStatement := ⟨_, hblock, rfl⟩
  refine .seq L.toOrdered (run_nextFrame L hstage.takesFrame) fun w₁ a b h hab => ?_
  have hu := L.unwound_of_le h
  have hstage₁ := hstage.mono L.toOrdered hu
  have hc₁ := L.scope_mono h hc
  have hes₁ : ∀ e ∈ es, S.fits w₁ e := fun e he => L.fits_mono hu (L.fits_part hblock he)
  rcases hab with ⟨rfl, rfl⟩ | ⟨f, f', rfl, rfl, hf⟩
  · exact agrees_runStatements L R hstage₁ hc₁ 0 .null hes₁
  · cases hf with
    | inBlock i =>
      exact agrees_runStatements L R hstage₁ hc₁ i .null fun e he => hes₁ e (List.mem_of_mem_drop he)
    | _ => exact agrees_wrongFrame L (by constructor <;> assumption) _

theorem agrees_chooseArm {c c' : Nat} (hc : S.scope w c c') (i : Nat) {arms : List (Node × Node)}
    (harms : ∀ arm ∈ arms, S.fits w arm.1) :
    S.Agrees ev ev' w (chooseArm c i arms) (chooseArm c' i arms) := by
  induction arms generalizing w i with
  | nil => exact .pure L.toOrdered none
  | cons arm arms ih =>
    refine .bind L.toOrdered (R.eval (harms arm List.mem_cons_self) hc) fun w₁ v h₁ => ?_
    refine .bind L.toOrdered (agrees_toBool L R v) fun w₂ b h₂ => ?_
    have h := L.le_trans h₁ h₂
    cases b with
    | true => exact .pure L.toOrdered (some i)
    | false =>
      exact ih (L.scope_mono h hc) (i + 1) fun arm harm =>
        L.fits_mono (L.unwound_of_le h) (harms arm (List.mem_cons_of_mem _ harm))

theorem agrees_runArm (hstage : S.Permits w Node.isStatement) {c c' : Nat} (hc : S.scope w c c')
    {arms : List (Node × Node)} {otherwise : Option Node} (harms : ∀ arm ∈ arms, S.fits w arm.2)
    (hotherwise : ∀ e ∈ otherwise, S.fits w e) (arm : Option Nat) :
    S.Agrees ev ev' w (runArm arms otherwise arm c) (runArm arms otherwise arm c') := by
  have hbody : ∀ e ∈ armBody arms otherwise arm, S.fits w e := by
    cases arm with
    | none => exact hotherwise
    | some i =>
      intro e he
      obtain ⟨arm, harm, rfl⟩ := Option.map_eq_some_iff.mp he
      exact harms arm (List.mem_of_getElem? harm)
  rw [runArm_eq, runArm_eq]
  cases h : armBody arms otherwise arm with
  | some e => exact agrees_leavingFrame L hstage (.inBranch arm hc) nofun (R.eval (hbody e h) hc)
  | none => exact .fail L.toOrdered _

theorem agrees_evalBranch {c c' : Nat} (hc : S.scope w c c') {arms : List (Node × Node)}
    {otherwise : Option Node} (hbranch : S.fits w (.branch arms otherwise)) :
    S.Agrees ev ev' w (evalBranch arms otherwise c) (evalBranch arms otherwise c') := by
  have hpair : ∀ arm ∈ arms, ∀ e ∈ [arm.1, arm.2], S.fits w e := fun arm ha e he =>
    L.fits_part hbranch (List.mem_append_left _ (List.mem_flatMap.mpr ⟨arm, ha, he⟩))
  have hconds : ∀ arm ∈ arms, S.fits w arm.1 := fun arm ha => hpair arm ha _ (by simp)
  have harms : ∀ arm ∈ arms, S.fits w arm.2 := fun arm ha => hpair arm ha _ (by simp)
  have hotherwise : ∀ e ∈ otherwise, S.fits w e := fun e he =>
    L.fits_part hbranch (List.mem_append_right _ (Option.mem_toList.mpr he))
  have hstage : S.Permits w Node.isStatement := ⟨_, hbranch, rfl⟩
  have harm : ∀ {w₁ inner inner'} (arm : Option Nat), S.le w w₁ → S.scope w₁ inner inner' →
      S.Agrees ev ev' w₁ (runArm arms otherwise arm inner) (runArm arms otherwise arm inner') := by
    intro w₁ inner inner' arm h hinner
    have hu := L.unwound_of_le h
    exact agrees_runArm L R (hstage.mono L.toOrdered hu) hinner (fun arm ha => L.fits_mono hu (harms arm ha))
      (fun e he => L.fits_mono hu (hotherwise e he)) arm
  refine .seq L.toOrdered (run_nextFrame L hstage.takesFrame) fun w₁ a b h₁ hab => ?_
  -- an arm is to be chosen, or was chosen before the branch was left
  rcases hab with ⟨rfl, rfl⟩ | ⟨f, f', rfl, rfl, hf⟩
  · have hconds₁ : ∀ arm ∈ arms, S.fits w₁ arm.1 := fun arm ha =>
      L.fits_mono (L.unwound_of_le h₁) (hconds arm ha)
    refine .bind L.toOrdered
      (agrees_chooseArm L R (L.scope_mono h₁ hc) 0 hconds₁) fun w₂ arm h₂ => ?_
    split
    · exact .pure L.toOrdered Value.null
    · have h := L.le_trans h₁ h₂
      refine .seq L.toOrdered (.newScope L (L.scope_mono h hc)) fun w₃ inner inner' h₃ hinner => ?_
      exact harm arm (L.le_trans h h₃) hinner.1
  · cases hf with
    | inBranch arm hinner => exact harm arm h₁ hinner
    | _ => exact agrees_wrongFrame L (by constructor <;> assumption) _

/-! ## Loops -/

theorem agrees_runRound (hstage : S.Permits w Node.isStatement) {c c' : Nat} (hc : S.scope w c c')
    {f f' : ResumeFrame} (hf : S.SameFrame w f f') (hne : f ≠ .atYield) {body : Node}
    (hbody : S.fits w body) :
    S.Agrees ev ev' w (runRound f body c) (runRound f' body c') := by
  intro s s' hs
  exact (agrees_leavingFrame L hstage hf hne (R.eval hbody hc) s s' hs).roundEnd

omit R in
theorem agrees_afterRound {x y : Exec Value} (r : Option Value) (h : S.Agrees ev ev' w x y) :
    S.Agrees ev ev' w (afterRound x r) (afterRound y r) := by
  cases r with
  | some v => exact .pure L.toOrdered v
  | none => exact h

theorem agrees_whileRounds {cond body : Node} (fuel : Nat) {w : S.World} {c c' : Nat}
    (hc : S.scope w c c') (hloop : S.fits w (.whileLoop cond body)) :
    S.Agrees ev ev' w (whileRounds cond body c fuel none) (whileRounds cond body c' fuel none) ∧
      ∀ inner inner', S.scope w inner inner' →
        S.Agrees ev ev' w (whileRounds cond body c fuel (some inner))
          (whileRounds cond body c' fuel (some inner')) := by
  -- a round ends the loop or goes on with the next one, for which the bound is smaller
  induction fuel generalizing w with
  | zero => exact ⟨.halt L.toOrdered _, fun _ _ _ => .halt L.toOrdered _⟩
  | succ fuel ih =>
    have hround : ∀ {w₁ inner inner'}, S.le w w₁ → S.scope w₁ inner inner' →
        S.Agrees ev ev' w₁ (whileRounds cond body c (fuel + 1) (some inner))
          (whileRounds cond body c' (fuel + 1) (some inner')) := by
      intro w₁ inner inner' h₁ hinner
      rw [whileRounds_resumed, whileRounds_resumed]
      have hloop₁ := L.fits_mono (L.unwound_of_le h₁) hloop
      have hbody₁ : S.fits w₁ body := L.fits_part hloop₁ (by simp [Node.parts])
      refine .bind L.toOrdered
        (agrees_runRound L R ⟨_, hloop₁, rfl⟩ hinner (.inWhile hinner) nofun hbody₁) ?_
      intro w₂ r h₂
      have h := L.le_trans h₁ h₂
      exact agrees_afterRound L r
        (ih (L.scope_mono h hc) (L.fits_mono (L.unwound_of_le h) hloop)).1
    refine ⟨?_, fun inner inner' hinner => hround (L.le_refl w) hinner⟩
    rw [whileRounds_begin, whileRounds_begin]
    have hcond : S.fits w cond := L.fits_part hloop (by simp [Node.parts])
    refine .bind L.toOrdered (R.eval hcond hc) fun w₁ v h₁ => ?_
    refine .bind L.toOrdered (agrees_toBool L R v) fun w₂ b h₂ => ?_
    cases b with
    | false => exact .pure L.toOrdered _
    | true =>
      have h := L.le_trans h₁ h₂
      refine .seq L.toOrdered (.newScope L (L.scope_mono h hc)) fun w₃ inner inner' h₃ hinner => ?_
      exact hround (L.le_trans h h₃) hinner.1

theorem agrees_evalWhile {c c' : Nat} (hc : S.scope w c c') {cond body : Node}
    (hloop : S.fits w (.whileLoop cond body)) :
    S.Agrees ev ev' w (evalWhile cond body c) (evalWhile cond body c') := by
  have hstage : S.Permits w Node.isStatement := ⟨_, hloop, rfl⟩
  refine .seq L.toOrdered (run_nextFrame L hstage.takesFrame) fun w₁ a b h₁ hab => ?_
  have hrounds : ∀ {w₂} (fuel : Nat), S.le w₁ w₂ → _ := fun {w₂} fuel h₂ =>
    have h := L.le_trans h₁ h₂
    agrees_whileRounds L R fuel (L.scope_mono h hc) (L.fits_mono (L.unwound_of_le h) hloop)
  rcases hab with ⟨rfl, rfl⟩ | ⟨f, f', rfl, rfl, hf⟩
  · exact .bind L.toOrdered (.fuel L R) fun w₂ fuel h₂ => (hrounds fuel h₂).1
  · cases hf with
    | inWhile hinner =>
      exact .bind L.toOrdered (.fuel L R) fun w₂ fuel h₂ =>
        (hrounds fuel h₂).2 _ _ (L.scope_mono h₂ hinner)
    | _ => exact agrees_wrongFrame L (by constructor <;> assumption) _

theorem agrees_rangeBound (v : Value) : S.Agrees ev ev' w (rangeBound v) (rangeBound v) := by
  refine .bind L.toOrdered (agrees_castValue L R v .long) fun w₁ v _ => ?_
  cases v with
  | long n => exact .pure L.toOrdered n
  | _ => exact agrees_typeMismatch L "long" _

theorem agrees_rangeRounds (x : String) (ty : TypeKind) (direction : RangeDirection) (stop : Int64)
    {body : Node} (fuel : Nat) (current : Int64) {w : S.World} {c c' : Nat} (hc : S.scope w c c')
    (hstage : S.Permits w Node.isStatement) (hbody : S.fits w body) :
    S.Agrees ev ev' w (rangeRounds x ty direction stop body c fuel current none)
        (rangeRounds x ty direction stop body c' fuel current none) ∧
      ∀ inner inner', S.scope w inner inner' →
        S.Agrees ev ev' w (rangeRounds x ty direction stop body c fuel current (some inner))
          (rangeRounds x ty direction stop body c' fuel current (some inner')) := by
  induction fuel generalizing w current with
  | zero => exact ⟨.halt L.toOrdered _, fun _ _ _ => .halt L.toOrdered _⟩
  | succ fuel ih =>
    -- a round goes on alike whether its scope is new or that of a round that was left by a `yield`
    have hround : ∀ {w₁ inner inner'}, S.le w w₁ → S.scope w₁ inner inner' →
        S.Agrees ev ev' w₁ (rangeRounds x ty direction stop body c (fuel + 1) current (some inner))
          (rangeRounds x ty direction stop body c' (fuel + 1) current (some inner')) := by
      intro w₁ inner inner' h₁ hinner
      rw [rangeRounds_resumed, rangeRounds_resumed]
      split
      · have hu := L.unwound_of_le h₁
        refine .bind L.toOrdered (agrees_runRound L R (hstage.mono L.toOrdered hu) hinner
          (.inRange current stop hinner) nofun (L.fits_mono hu hbody)) fun w₂ r h₂ => ?_
        refine agrees_afterRound L r ?_
        have h := L.le_trans h₁ h₂
        have hu := L.unwound_of_le h
        unfold rangeRest
        cases Range.next? direction current with
        | none => exact .pure L.toOrdered _
        | some next =>
          exact (ih next (L.scope_mono h hc) (hstage.mono L.toOrdered hu) (L.fits_mono hu hbody)).1
      · exact .pure L.toOrdered _
    refine ⟨?_, fun inner inner' hinner => hround (L.le_refl w) hinner⟩
    rw [rangeRounds_begin, rangeRounds_begin]
    split
    · refine .seq L.toOrdered (.newScope L hc) fun w₁ inner inner' h₁ hinner => ?_
      refine .bindOn L.toOrdered (converts_coerce L R w₁ _ ty) fun w₂ v h₂ hv => ?_
      have hinner₂ := L.scope_mono h₂ hinner.1
      refine .bind L.toOrdered (.declare L hinner₂ x hv) fun w₃ _ h₃ => ?_
      exact hround (L.le_trans h₁ (L.le_trans h₂ h₃)) (L.scope_mono h₃ hinner₂)
    · exact .pure L.toOrdered _

theorem agrees_evalRange {c c' : Nat} (hc : S.scope w c c') {x : String} {ty : TypeKind}
    {direction : RangeDirection} {start stop body : Node}
    (hloop : S.fits w (.forRange x ty start stop direction body)) :
    S.Agrees ev ev' w (evalRange x ty start stop direction body c)
      (evalRange x ty start stop direction body c') := by
  have hstart : S.fits w start := L.fits_part hloop (by simp [Node.parts])
  have hstop : S.fits w stop := L.fits_part hloop (by simp [Node.parts])
  have hbody : S.fits w body := L.fits_part hloop (by simp [Node.parts])
  have hstage : S.Permits w Node.isStatement := ⟨_, hloop, rfl⟩
  refine .seq L.toOrdered (run_nextFrame L hstage.takesFrame) fun w₁ a b h₁ hab => ?_
  have hrounds : ∀ {w₂} (fuel : Nat) (current last : Int64), S.le w₁ w₂ → _ :=
    fun {w₂} fuel current last h₂ =>
      have h := L.le_trans h₁ h₂
      have hu := L.unwound_of_le h
      agrees_rangeRounds L R x ty direction last fuel current (L.scope_mono h hc)
        (hstage.mono L.toOrdered hu) (L.fits_mono hu hbody)
  -- the loop begins, or goes on in the round in which it was left
  rcases hab with ⟨rfl, rfl⟩ | ⟨f, f', rfl, rfl, hf⟩
  · have hc₁ := L.scope_mono h₁ hc
    have hstart₁ := L.fits_mono (L.unwound_of_le h₁) hstart
    refine .bind L.toOrdered (R.eval hstart₁ hc₁) fun w₂ first h₂ => ?_
    have hstop₂ := L.fits_mono (L.unwound_of_le (L.le_trans h₁ h₂)) hstop
    refine .bind L.toOrdered (R.eval hstop₂ (L.scope_mono h₂ hc₁)) fun w₃ last h₃ => ?_
    refine .bind L.toOrdered (agrees_rangeBound L R first) fun w₄ first h₄ => ?_
    refine .bind L.toOrdered (agrees_rangeBound L R last) fun w₅ last h₅ => ?_
    refine .bind L.toOrdered (.fuel L R) fun w₆ fuel h₆ => ?_
    have h := L.le_trans h₂ (L.le_trans h₃ (L.le_trans h₄ (L.le_trans h₅ h₆)))
    exact (hrounds fuel first last h).1
  · cases hf with
    | inRange current stop hinner =>
      exact .bind L.toOrdered (.fuel L R) fun w₂ fuel h₂ =>
        (hrounds fuel current stop h₂).2 _ _ (L.scope_mono h₂ hinner)
    | _ => exact agrees_wrongFrame L (by constructor <;> assumption) _

omit R in
theorem agrees_eachSource (v : Value) : S.Agrees ev ev' w (eachSource v) (eachSource v) := by
  cases v with
  | list i | array i =>
    exact .bind L.toOrdered (.heap L fun A => by rw [A.sequence]) fun _ _ _ => .pure L.toOrdered _
  | map i =>
    exact .bind L.toOrdered (.heap L fun A => by rw [A.mapAt]) fun _ _ _ => .pure L.toOrdered _
  | str s => exact .pure L.toOrdered _
  | coroutine i => exact .pure L.toOrdered _
  | _ => exact agrees_typeMismatch L _ _

theorem agrees_nextItem (source : EachSource) :
    S.Agrees ev ev' w (nextItem source) (nextItem source) := by
  cases source with
  | items rest => cases rest <;> exact .pure L.toOrdered _
  | coroutine i =>
    refine .bind L.toOrdered (.heap L fun A => A.isFinished i) fun w₁ isFinished _ => ?_
    cases isFinished with
    | true => exact .pure L.toOrdered none
    | false =>
      exact .bind L.toOrdered (agrees_resumeCoroutine L R i) fun _ _ _ => .pure L.toOrdered _

theorem agrees_eachRounds (x : String) {body : Node} (fuel : Nat) (source : EachSource)
    {w : S.World} {c c' : Nat} (hc : S.scope w c c') (hstage : S.Permits w Node.isStatement)
    (hbody : S.fits w body) :
    S.Agrees ev ev' w (eachRounds x body c fuel source none)
        (eachRounds x body c' fuel source none) ∧
      ∀ inner inner', S.scope w inner inner' →
        S.Agrees ev ev' w (eachRounds x body c fuel source (some inner))
          (eachRounds x body c' fuel source (some inner')) := by
  induction fuel generalizing w source with
  | zero => exact ⟨.halt L.toOrdered _, fun _ _ _ => .halt L.toOrdered _⟩
  | succ fuel ih =>
    have hround : ∀ {w₁ inner inner'} (source : EachSource), S.le w w₁ → S.scope w₁ inner inner' →
        S.Agrees ev ev' w₁ (eachRounds x body c (fuel + 1) source (some inner))
          (eachRounds x body c' (fuel + 1) source (some inner')) := by
      intro w₁ inner inner' source h₁ hinner
      rw [eachRounds_resumed, eachRounds_resumed]
      have hu₁ := L.unwound_of_le h₁
      refine .bind L.toOrdered (agrees_runRound L R (hstage.mono L.toOrdered hu₁) hinner
        (.inEach source hinner) nofun (L.fits_mono hu₁ hbody)) ?_
      intro w₂ r h₂
      have h := L.le_trans h₁ h₂
      have hu := L.unwound_of_le h
      exact agrees_afterRound L r
        (ih source (L.scope_mono h hc) (hstage.mono L.toOrdered hu) (L.fits_mono hu hbody)).1
    refine ⟨?_, fun inner inner' hinner => hround source (L.le_refl w) hinner⟩
    rw [eachRounds_begin, eachRounds_begin]
    refine .bind L.toOrdered (agrees_nextItem L R source) fun w₁ item h₁ => ?_
    cases item with
    | none => exact .pure L.toOrdered _
    | some item =>
      have hitem := L.suits_any w₁ item.1
      refine .seq L.toOrdered (.newScopeWith L (L.scope_mono h₁ hc) x hitem) ?_
      exact fun w₂ inner inner' h₂ hinner => hround item.2 (L.le_trans h₁ h₂) hinner.1

theorem agrees_evalEach {c c' : Nat} (hc : S.scope w c c') {x : String} {iterable body : Node}
    (hloop : S.fits w (.forEach x iterable body)) :
    S.Agrees ev ev' w (evalEach x iterable body c) (evalEach x iterable body c') := by
  have hiterable : S.fits w iterable := L.fits_part hloop (by simp [Node.parts])
  have hbody : S.fits w body := L.fits_part hloop (by simp [Node.parts])
  have hstage : S.Permits w Node.isStatement := ⟨_, hloop, rfl⟩
  refine .seq L.toOrdered (run_nextFrame L hstage.takesFrame) fun w₁ a b h₁ hab => ?_
  have hrounds : ∀ {w₂} (fuel : Nat) (source : EachSource), S.le w₁ w₂ → _ :=
    fun {w₂} fuel source h₂ =>
      have h := L.le_trans h₁ h₂
      have hu := L.unwound_of_le h
      agrees_eachRounds L R x fuel source (L.scope_mono h hc) (hstage.mono L.toOrdered hu)
        (L.fits_mono hu hbody)
  rcases hab with ⟨rfl, rfl⟩ | ⟨f, f', rfl, rfl, hf⟩
  · have hiterable₁ := L.fits_mono (L.unwound_of_le h₁) hiterable
    refine .bind L.toOrdered (R.eval hiterable₁ (L.scope_mono h₁ hc)) fun w₂ v h₂ => ?_
    refine .bind L.toOrdered (agrees_eachSource L v) fun w₃ source h₃ => ?_
    refine .bind L.toOrdered (.fuel L R) fun w₄ fuel h₄ => ?_
    exact (hrounds fuel source (L.le_trans h₂ (L.le_trans h₃ h₄))).1
  · cases hf with
    | inEach source hinner =>
      exact .bind L.toOrdered (.fuel L R) fun w₂ fuel h₂ =>
        (hrounds fuel source h₂).2 _ _ (L.scope_mono h₂ hinner)
    | _ => exact agrees_wrongFrame L (by constructor <;> assumption) _

/-! ## Jumps -/

theorem agrees_evalOptional {c c' : Nat} (hc : S.scope w c c') {e : Option Node}
    (he : ∀ e' ∈ e, S.fits w e') :
    S.Agrees ev ev' w (evalOptional e c) (evalOptional e c') := by
  cases e with
  | some e => exact R.eval (he e rfl) hc
  | none => exact .pure L.toOrdered _

theorem agrees_evalYield {c c' : Nat} (hc : S.scope w c c') {e : Option Node}
    (hyield : S.fits w (.yieldWith e)) :
    S.Agrees ev ev' w (evalYield e c) (evalYield e c') := by
  refine .seq L.toOrdered (run_nextFrame L ⟨_, hyield, rfl⟩) fun w₁ a b h₁ hab => ?_
  have hyield₁ := L.fits_mono (L.unwound_of_le h₁) hyield
  rcases hab with ⟨rfl, rfl⟩ | ⟨f, f', rfl, rfl, hf⟩
  · refine .bind L.toOrdered (agrees_evalOptional L R (L.scope_mono h₁ hc) fun e' he => ?_) ?_
    · exact L.fits_part hyield₁ (Option.mem_toList.mpr he)
    · intro w₂ v h₂
      refine .raise L.toOrdered fun w₃ h₃ => .yieldValue v h₃ ?_
      exact L.way_yield (L.fits_mono (L.unwound_of_le (L.le_trans h₂ h₃)) hyield₁)
  · cases hf with
    | atYield => exact .pure L.toOrdered _
    | _ => exact agrees_wrongFrame L (by constructor <;> assumption) _

/-! ## Exceptions -/

theorem agrees_exceptionFrom (e : EvalError) :
    S.Agrees ev ev' w (exceptionFrom e) (exceptionFrom e) := by
  refine .bind L.toOrdered (.session L.toOrdered fun hs => by rw [L.classes hs]) fun w₁ cls _ => ?_
  cases cls with
  | none => exact .error L.toOrdered e
  | some cls =>
    dsimp only
    rw [(jumpless_instantiate cls _ _).settle_eq]
    exact agrees_instantiate L R cls _ _

theorem agrees_runHandler (hstage : S.Permits w Node.isStatement) {c c' : Nat} (hc : S.scope w c c')
    {handler : Node} (hhandler : S.fits w handler) :
    S.Agrees ev ev' w (runHandler handler c) (runHandler handler c') :=
  agrees_leavingFrame L hstage (.inHandler hc) nofun (R.eval hhandler hc)

theorem agrees_handleException (hstage : S.Permits w Node.isStatement) {c c' : Nat}
    (hc : S.scope w c c') (x : String) {handler : Node} (hhandler : S.fits w handler)
    (exception : Value) :
    S.Agrees ev ev' w (handleException x handler c exception)
      (handleException x handler c' exception) := by
  have hexception := L.suits_any w exception
  refine .seq L.toOrdered (.newScopeWith L hc x hexception) fun w₁ inner inner' h hinner => ?_
  have hu := L.unwound_of_le h
  exact agrees_runHandler L R (hstage.mono L.toOrdered hu) hinner.1 (L.fits_mono hu hhandler)

/-- Two guards let a handler begin only where nothing that it needs has been forgotten. -/
def Guards (S : Simulation) (ev ev' : Evaluator) (guard guard' : Exec Unit) : Prop :=
  ∀ {w w' : S.World} {s s' : State}, S.unwound w w' → S.rel w' s s' →
    (S.lax ∧ ∃ t, guard ev s = (.halted .outOfFuel, t)) ∨
      S.le w w' ∧ guard ev s = (.value (), s) ∧ guard' ev' s' = (.value (), s')

theorem agrees_runTryWith {guard guard' : Exec Unit} (hguard : S.Guards ev ev' guard guard')
    {c c' : Nat} (hc : S.scope w c c') {x : String} {body handler : Node}
    (htry : S.fits w (.tryCatch body x handler)) :
    S.Agrees ev ev' w (runTryWith guard body x handler c) (runTryWith guard' body x handler c') := by
  have hbody : S.fits w body := L.fits_part htry (by simp [Node.parts])
  have hhandler : S.fits w handler := L.fits_part htry (by simp [Node.parts])
  have hstage : S.Permits w Node.isStatement := ⟨_, htry, rfl⟩
  -- what the handler does, once the guards have let it begin
  have hbegin : ∀ {w' : S.World} {t t' : State} {y y' : Exec Value}, S.unwound w w' →
      S.rel w' t t' → (S.le w w' → S.Agrees ev ev' w' y y') →
      S.Ends w (fun _ a b => a = b) ((do guard; y : Exec Value) ev t)
        ((do guard'; y' : Exec Value) ev' t') := by
    intro w' t t' y y' hunwound hrel hy
    rw [bind_apply, bind_apply]
    rcases hguard hunwound hrel with ⟨hlax, u, hhalt⟩ | ⟨hle, hvalue, hvalue'⟩
    · rw [hhalt]
      exact .stopped u _ hlax
    · rw [hvalue, hvalue']
      exact (hy hle t t' hrel).mono L.toOrdered hle
  refine .handle (agrees_leavingFrame L hstage .inBody nofun (R.eval hbody hc)) fun hg hrel => ?_
  cases hg with
  | throwValue v hunwound =>
    refine Or.inr ⟨_, _, rfl, rfl, hbegin hunwound hrel fun hle => ?_⟩
    exact agrees_handleException L R (hstage.mono L.toOrdered hunwound) (L.scope_mono hle hc) x
      (L.fits_mono hunwound hhandler) v
  | error e hunwound =>
    cases hcatch : e.isCatchable with
    | false =>
      simp only [hcatch]
      exact Or.inl ⟨rfl, rfl⟩
    | true =>
      simp only [hcatch, if_true]
      refine Or.inr ⟨_, _, rfl, rfl, hbegin hunwound hrel fun hle => ?_⟩
      refine .bind L.toOrdered (agrees_exceptionFrom L R e) fun w₁ v h₁ => ?_
      have h := L.le_trans hle h₁
      have hu := L.unwound_of_le h
      exact agrees_handleException L R (hstage.mono L.toOrdered hu) (L.scope_mono h hc) x
        (L.fits_mono hu hhandler) v
  | breakLoop | continueLoop | yieldValue | returnValue => exact Or.inl ⟨rfl, rfl⟩

theorem agrees_evalTryWith {guard guard' : Exec Unit} (hguard : S.Guards ev ev' guard guard')
    {c c' : Nat} (hc : S.scope w c c') {x : String} {body handler : Node}
    (htry : S.fits w (.tryCatch body x handler)) :
    S.Agrees ev ev' w (evalTryWith guard body x handler c)
      (evalTryWith guard' body x handler c') := by
  have htakes : S.Permits w Node.takesFrame := ⟨_, htry, rfl⟩
  refine .seq L.toOrdered (run_nextFrame L htakes) fun w₁ a b h₁ hab => ?_
  have hc₁ := L.scope_mono h₁ hc
  have htry₁ := L.fits_mono (L.unwound_of_le h₁) htry
  have hhandler₁ : S.fits w₁ handler := L.fits_part htry₁ (by simp [Node.parts])
  have hbegin := agrees_runTryWith L R hguard hc₁ htry₁
  rcases hab with ⟨rfl, rfl⟩ | ⟨f, f', rfl, rfl, hf⟩
  · exact hbegin
  · cases hf with
    | inBody => exact hbegin
    | inHandler hinner => exact agrees_runHandler L R ⟨_, htry₁, rfl⟩ hinner hhandler₁
    | _ => exact agrees_wrongFrame L (by constructor <;> assumption) _

/-! ## Returns -/

/-- A return, if the two sides agree on calls as results. -/
theorem agrees_evalReturn {c c' : Nat} (hc : S.scope w c c') {value : Option Node}
    (hvalue : ∀ e ∈ value, S.fits w e) :
    S.Agrees ev ev' w (evalReturn value c) (evalReturn value c') := by
  have hother : ∀ {e : Option Node}, (∀ e' ∈ e, S.fits w e') →
      S.Agrees ev ev' w (returning (evalOptional e c)) (returning (evalOptional e c')) := by
    intro e he
    refine .bind L.toOrdered (agrees_evalOptional L R hc he) fun w₁ v _ => ?_
    exact .raise L.toOrdered fun _ h => .returnValue v (L.unwound_of_le h)
  cases value with
  | none => exact hother hvalue
  | some e =>
    cases e with
    | call site name args =>
      rw [evalReturn_call, evalReturn_call]
      have hargs : ∀ e ∈ args, S.fits w e := fun e he => L.fits_part (hvalue _ rfl) he
      have hcalls : S.Permits w Node.isCall := ⟨_, hvalue _ rfl, rfl⟩
      refine .bind L.toOrdered (L.enterNode ev ev') fun w₁ _ h₁ => ?_
      have hcalls₁ := hcalls.mono L.toOrdered (L.unwound_of_le h₁)
      refine .seq L.toOrdered (run_resolveCall L hcalls₁ site name args.length) fun w₂ p q h₂ hp => ?_
      obtain ⟨rfl, hallows⟩ := hp
      have hu := L.unwound_of_le (L.le_trans h₁ h₂)
      exact agrees_returnCallee L R (hcalls.mono L.toOrdered hu)
        (L.scope_mono (L.le_trans h₁ h₂) hc) p.1 hallows fun e he => L.fits_mono hu (hargs e he)
    | _ => exact hother hvalue

end Simulation
end TreeScript
