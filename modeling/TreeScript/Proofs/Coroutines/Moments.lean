import Mathlib.Data.List.Nodup
import TreeScript.Coroutine

/-
# The life of coroutines

Coroutines are made, and begin and stop in turn until they are finished.  Each of these is a `Turn`.  Which
turns may come next is decided by the `Moment`: by the coroutines that there are, and by the resumes that
have begun and not ended, of which the latest one ends first (`Moment.Step`).

An evaluation takes a list of turns, from a moment without resumes of its own to another (`Moment.Runs`).  It
may stand inside other resumes, whose coroutines are running when it begins.  At every moment of it, exactly
those coroutines run, and the ones of its own resumes (`Moment.Sound`).
-/

namespace TreeScript

/-! ## Coroutines -/

/-- Where a coroutine may go from a state. -/
inductive CoroutineState.Next : CoroutineState → CoroutineState → Prop
  | start : Next .created .running
  | goOn : Next .suspended .running
  | stop : Next .running .suspended
  | finish : Next .running .finished

namespace Coroutine

/-- The coroutine while its body runs. -/
def begun (c : Coroutine) : Coroutine := { c with state := .running, frames := [] }

/-- A coroutine may be started, or go on. -/
def Waits (c : Coroutine) : Prop := c.state = .created ∨ c.state = .suspended

/-- A coroutine has a way back if and only if it is suspended. -/
def Kept (c : Coroutine) : Prop := c.frames ≠ [] ↔ c.state = .suspended

/-- A coroutine goes to another state, and stays the same but for its way back. -/
def Moves (c c' : Coroutine) : Prop :=
  c.state.Next c'.state ∧ c' = { c with state := c'.state, frames := c'.frames }

section
variable {c : Coroutine} {frames : List ResumeFrame}

theorem Waits.ne_running (h : c.Waits) : c.state ≠ .running := by
  rintro hstate
  rcases h with h | h <;> cases hstate.symm.trans h

theorem waits_of_ne (hrunning : c.state ≠ .running) (hfinished : c.state ≠ .finished) : c.Waits := by
  cases hstate : c.state with
  | created => exact Or.inl hstate
  | suspended => exact Or.inr hstate
  | running => exact absurd hstate hrunning
  | finished => exact absurd hstate hfinished

theorem begin?_of_waits (h : c.Waits) : c.begin? = .ok (some (c.frames, c.begun)) := by
  unfold begin?
  rcases h with h | h <;> rw [h] <;> rfl

theorem kept_created (hstate : c.state = .created) (hframes : c.frames = []) : c.Kept :=
  ⟨fun h => absurd hframes h, fun h => by cases hstate.symm.trans h⟩

theorem kept_begun (c : Coroutine) : c.begun.Kept := ⟨fun h => absurd rfl h, fun h => by cases h⟩

theorem kept_suspend (c : Coroutine) (h : frames ≠ []) : (c.suspend frames).Kept := ⟨fun _ => rfl, fun _ => h⟩

theorem kept_finish (c : Coroutine) : c.finish.Kept := ⟨fun h => absurd rfl h, fun h => by cases h⟩

theorem moves_begun (h : c.Waits) : c.Moves c.begun := by
  refine ⟨?_, rfl⟩
  rcases h with h | h
  · exact h ▸ .start
  · exact h ▸ .goOn

theorem moves_suspend (h : c.state = .running) (frames : List ResumeFrame) : c.Moves (c.suspend frames) :=
  ⟨h ▸ .stop, rfl⟩

theorem moves_finish (h : c.state = .running) : c.Moves c.finish := ⟨h ▸ .finish, rfl⟩

end
end Coroutine

/-! ## Moments -/

/-- What happens to coroutines. -/
inductive Turn where
  | made (c : Coroutine)
  /-- The body begins, or goes on. -/
  | began (i : Nat)
  /-- The body is left by a `yield`. -/
  | suspended (i : Nat) (frames : List ResumeFrame)
  /-- The body ends in any other way. -/
  | finished (i : Nat)

/-- The coroutines that there are, and the resumes that have begun and not ended, latest first. -/
structure Moment where
  coroutines : Array Coroutine
  resumes : List Nat

namespace Moment

/-- What a turn does at a moment that admits it. -/
inductive Step : Moment → Turn → Moment → Prop
  | made {cs : Array Coroutine} {resumes : List Nat} {c : Coroutine} :
      c.state = .created → c.frames = [] → Step ⟨cs, resumes⟩ (.made c) ⟨cs.push c, resumes⟩
  | began {cs : Array Coroutine} {resumes : List Nat} {i : Nat} {c : Coroutine} : cs[i]? = some c →
      c.Waits → Step ⟨cs, resumes⟩ (.began i) ⟨cs.setIfInBounds i c.begun, i :: resumes⟩
  | suspended {cs : Array Coroutine} {resumes : List Nat} {i : Nat} {c : Coroutine}
      {frames : List ResumeFrame} : cs[i]? = some c → c.state = .running → frames ≠ [] →
      Step ⟨cs, i :: resumes⟩ (.suspended i frames) ⟨cs.setIfInBounds i (c.suspend frames), resumes⟩
  | finished {cs : Array Coroutine} {resumes : List Nat} {i : Nat} {c : Coroutine} : cs[i]? = some c →
      c.state = .running → Step ⟨cs, i :: resumes⟩ (.finished i) ⟨cs.setIfInBounds i c.finish, resumes⟩

/-- What turns do, one after the other. -/
inductive Path : Moment → List Turn → Moment → Prop
  | nil (m : Moment) : Path m [] m
  | cons {m m' m'' : Moment} {turn : Turn} {turns : List Turn} :
      Step m turn m' → Path m' turns m'' → Path m (turn :: turns) m''

section
variable {m m' m'' : Moment} {turn : Turn} {turns turns' : List Turn} {i j : Nat} {c : Coroutine}

theorem Path.append (h : Path m turns m') (h' : Path m' turns' m'') : Path m (turns ++ turns') m'' := by
  induction h with
  | nil => exact h'
  | cons hstep _ ih => exact .cons hstep (ih h')

/-- A path may be cut anywhere. -/
theorem Path.split (h : Path m (turns ++ turns') m'') : ∃ m', Path m turns m' ∧ Path m' turns' m'' := by
  induction turns generalizing m with
  | nil => exact ⟨m, .nil m, h⟩
  | cons turn turns ih =>
    cases h with
    | cons hstep hrest =>
      obtain ⟨m', hfirst, hlast⟩ := ih hrest
      exact ⟨m', .cons hstep hfirst, hlast⟩

theorem getElem?_set {cs : Array Coroutine} (hi : cs[i]? = some c) (c' : Coroutine) (j : Nat) :
    (cs.setIfInBounds i c')[j]? = if i = j then some c' else cs[j]? := by
  obtain ⟨hlt, -⟩ := Array.getElem?_eq_some_iff.mp hi
  rw [Array.getElem?_setIfInBounds, if_pos hlt]

/-! ### What a turn changes -/

/-- **Coroutines move from state to state, and stay otherwise what they are.** -/
theorem Step.moves (h : Step m turn m') (hc : m.coroutines[j]? = some c) :
    ∃ c', m'.coroutines[j]? = some c' ∧ (c' = c ∨ c.Moves c') := by
  -- the coroutine that is put in place of one comes from it by a move
  have hput : ∀ {cs : Array Coroutine} {i : Nat} {d d' : Coroutine}, cs[i]? = some d → d.Moves d' →
      cs[j]? = some c → ∃ c', (cs.setIfInBounds i d')[j]? = some c' ∧ (c' = c ∨ c.Moves c') := by
    intro cs i d d' hi hmoves hj
    rw [getElem?_set hi]
    split
    · rename_i hij
      subst hij
      cases hi.symm.trans hj
      exact ⟨d', rfl, .inr hmoves⟩
    · exact ⟨c, hj, .inl rfl⟩
  cases h with
  | @made cs _ d _ _ =>
    obtain ⟨hlt, -⟩ := Array.getElem?_eq_some_iff.mp hc
    have hkept : (cs.push d)[j]? = some c := by
      rw [Array.getElem?_push, if_neg (Nat.ne_of_lt hlt)]
      exact hc
    exact ⟨c, hkept, .inl rfl⟩
  | began hi hwaits => exact hput hi (Coroutine.moves_begun hwaits) hc
  | suspended hi hrunning _ => exact hput hi (Coroutine.moves_suspend hrunning _) hc
  | finished hi hrunning => exact hput hi (Coroutine.moves_finish hrunning) hc

/-- A running coroutine stays as it is until its own resume ends. -/
theorem Step.running (h : Step m turn m') (hc : m.coroutines[j]? = some c) (hrunning : c.state = .running) :
    m'.coroutines[j]? = some c ∨ m.resumes = j :: m'.resumes := by
  cases h with
  | made _ _ =>
    obtain ⟨hlt, -⟩ := Array.getElem?_eq_some_iff.mp hc
    left
    show (Array.push _ _)[j]? = some c
    rw [Array.getElem?_push, if_neg (Nat.ne_of_lt hlt)]
    exact hc
  | began hi hwaits =>
    left
    rw [getElem?_set hi]
    split
    · rename_i hij
      subst hij
      cases hi.symm.trans hc
      exact absurd hrunning hwaits.ne_running
    · exact hc
  | @suspended _ _ i _ _ hi _ _ | @finished _ _ i _ hi _ =>
    by_cases hij : i = j
    · exact .inr (hij ▸ rfl)
    · left
      rw [getElem?_set hi, if_neg hij]
      exact hc

/-! ### What holds at every moment -/

/-- The coroutine of a number runs. -/
def Running (cs : Array Coroutine) (i : Nat) : Prop := ∃ c, cs[i]? = some c ∧ c.state = .running

/-- Exactly suspended coroutines have a way back. -/
def AllKept (cs : Array Coroutine) : Prop := ∀ (i : Nat) (c : Coroutine), cs[i]? = some c → c.Kept

/-- What holds at a moment of an evaluation that began with some coroutines: those that were running then run
on, and else those run whose resumes have begun since and not ended. -/
structure Sound (cs : Array Coroutine) (m : Moment) : Prop where
  nodup : m.resumes.Nodup
  own : ∀ i ∈ m.resumes, ¬ Running cs i
  running : ∀ i, Running m.coroutines i ↔ i ∈ m.resumes ∨ Running cs i
  kept : AllKept cs → AllKept m.coroutines

theorem running_set {cs : Array Coroutine} (hi : cs[i]? = some c) (c' : Coroutine) (j : Nat) :
    Running (cs.setIfInBounds i c') j ↔ if i = j then c'.state = .running else Running cs j := by
  unfold Running
  rw [getElem?_set hi]
  split
  · refine ⟨?_, fun h => ⟨c', rfl, h⟩⟩
    rintro ⟨d, hd, hrunning⟩
    cases hd
    exact hrunning
  · exact Iff.rfl

theorem running_push {cs : Array Coroutine} (hc : c.state ≠ .running) (j : Nat) :
    Running (cs.push c) j ↔ Running cs j := by
  unfold Running
  rw [Array.getElem?_push]
  split
  · rename_i hj
    constructor
    · rintro ⟨d, hd, hrunning⟩
      cases hd
      exact absurd hrunning hc
    · rintro ⟨d, hd, -⟩
      rw [Array.getElem?_eq_none (Nat.le_of_eq hj.symm)] at hd
      cases hd
  · exact Iff.rfl

theorem not_running {cs : Array Coroutine} (hi : cs[i]? = some c) (hc : c.state ≠ .running) :
    ¬ Running cs i := by
  rintro ⟨d, hd, hrunning⟩
  cases hi.symm.trans hd
  exact hc hrunning

theorem AllKept.set {cs : Array Coroutine} (h : AllKept cs) (hi : cs[i]? = some c) {c' : Coroutine}
    (hc' : c'.Kept) : AllKept (cs.setIfInBounds i c') := by
  intro j d hd
  rw [getElem?_set hi] at hd
  split at hd
  · cases hd
    exact hc'
  · exact h j d hd

theorem AllKept.push {cs : Array Coroutine} (h : AllKept cs) (hc : c.Kept) : AllKept (cs.push c) := by
  intro j d hd
  rw [Array.getElem?_push] at hd
  split at hd
  · cases hd
    exact hc
  · exact h j d hd

theorem sound_start (cs : Array Coroutine) : Sound cs ⟨cs, []⟩ where
  nodup := List.nodup_nil
  own := nofun
  running i := by simp
  kept h := h

variable {cs : Array Coroutine}

/-- The latest resume ends. -/
theorem Sound.pop {resumes : List Nat} (hs : Sound cs ⟨m.coroutines, i :: resumes⟩)
    (hi : m.coroutines[i]? = some c) {c' : Coroutine} (hc' : c'.state ≠ .running) (hkept : c'.Kept) :
    Sound cs ⟨m.coroutines.setIfInBounds i c', resumes⟩ := by
  obtain ⟨hnew, hnodup⟩ := List.nodup_cons.mp hs.nodup
  refine ⟨hnodup, fun j hj => hs.own j (List.mem_cons_of_mem i hj), fun j => ?_, fun h => ?_⟩
  · show Running (m.coroutines.setIfInBounds i c') j ↔ j ∈ resumes ∨ Running cs j
    have hbefore : Running m.coroutines j ↔ j ∈ i :: resumes ∨ Running cs j := hs.running j
    rw [running_set hi]
    split
    · rename_i hij
      subst hij
      have hown := hs.own i List.mem_cons_self
      exact ⟨fun h => absurd h hc', fun h => (h.elim hnew hown).elim⟩
    · rename_i hij
      rw [hbefore, List.mem_cons, or_iff_right (Ne.symm hij)]
  · exact (hs.kept h).set hi hkept

/-- Whatever turn comes next, what holds at a moment holds at the next one. -/
theorem Step.sound (h : Step m turn m') (hs : Sound cs m) : Sound cs m' := by
  cases h with
  -- it has not begun, so those that run are the same
  | @made _ _ c hstate hframes =>
    have hstill : c.state ≠ .running := fun h => by cases hstate.symm.trans h
    refine ⟨hs.nodup, hs.own, fun j => (running_push hstill j).trans (hs.running j), fun h => ?_⟩
    exact (hs.kept h).push (Coroutine.kept_created hstate hframes)
  | @began coroutines resumes i c hi hwaits =>
    have hstill : ¬ (i ∈ resumes ∨ Running cs i) := fun h =>
      not_running hi hwaits.ne_running ((hs.running i).mpr h)
    obtain ⟨hnew, hown⟩ := not_or.mp hstill
    refine ⟨List.nodup_cons.mpr ⟨hnew, hs.nodup⟩, fun j hj => ?_, fun j => ?_, fun h => ?_⟩
    · rcases List.mem_cons.mp hj with rfl | hj
      · exact hown
      · exact hs.own j hj
    · show Running (coroutines.setIfInBounds i c.begun) j ↔ j ∈ i :: resumes ∨ Running cs j
      have hbefore : Running coroutines j ↔ j ∈ resumes ∨ Running cs j := hs.running j
      rw [running_set hi]
      split
      · rename_i hij
        subst hij
        exact ⟨fun _ => .inl List.mem_cons_self, fun _ => rfl⟩
      · rename_i hij
        rw [hbefore, List.mem_cons, or_iff_right (Ne.symm hij)]
    · exact (hs.kept h).set hi (Coroutine.kept_begun c)
  -- the one that stops is the one that was resumed last
  | @suspended coroutines resumes i c frames hi _ hframes =>
    exact Sound.pop (m := ⟨coroutines, i :: resumes⟩) hs hi (fun h => by cases h)
      (Coroutine.kept_suspend c hframes)
  | @finished coroutines resumes i c hi _ =>
    exact Sound.pop (m := ⟨coroutines, i :: resumes⟩) hs hi (fun h => by cases h) (Coroutine.kept_finish c)

theorem Path.sound (h : Path m turns m') (hs : Sound cs m) : Sound cs m' := by
  induction h with
  | nil => exact hs
  | cons hstep _ ih => exact ih (hstep.sound hs)

/-! ### Evaluations -/

/-- Some turns take coroutines to others, whatever resumes they stand in: the resumes that begin in the course
of them have ended, and the coroutines that were running are still what they were. -/
structure Runs (cs : Array Coroutine) (turns : List Turn) (cs' : Array Coroutine) : Prop where
  path : ∀ resumes, Path ⟨cs, resumes⟩ turns ⟨cs', resumes⟩
  pending : ∀ {i : Nat} {c : Coroutine}, cs[i]? = some c → c.state = .running → cs'[i]? = some c

namespace Runs

variable {cs' cs'' : Array Coroutine}

theorem nil (cs : Array Coroutine) : Runs cs [] cs := ⟨fun _ => .nil _, fun h _ => h⟩

theorem made (cs : Array Coroutine) (hstate : c.state = .created) (hframes : c.frames = []) :
    Runs cs [.made c] (cs.push c) where
  path resumes := .cons (.made hstate hframes) (.nil _)
  pending {i d} hd _ := by
    obtain ⟨hlt, -⟩ := Array.getElem?_eq_some_iff.mp hd
    rw [Array.getElem?_push, if_neg (Nat.ne_of_lt hlt)]
    exact hd

theorem append (h : Runs cs turns cs') (h' : Runs cs' turns' cs'') : Runs cs (turns ++ turns') cs'' where
  path resumes := (h.path resumes).append (h'.path resumes)
  pending hc hrunning := h'.pending (h.pending hc hrunning) hrunning

/-- A coroutine begins, and stops. -/
theorem resumed (hi : cs[i]? = some c) (hwaits : c.Waits)
    (h : Runs (cs.setIfInBounds i c.begun) turns cs') {stop : Turn} {c' : Coroutine}
    (hstop : cs'[i]? = some c.begun → ∀ resumes, Step ⟨cs', i :: resumes⟩ stop
      ⟨cs'.setIfInBounds i c', resumes⟩) :
    Runs cs (.began i :: turns ++ [stop]) (cs'.setIfInBounds i c') := by
  have hpending : cs'[i]? = some c.begun := h.pending (by rw [getElem?_set hi, if_pos rfl]) rfl
  refine ⟨fun resumes => ?_, fun {j d} hd hrunning => ?_⟩
  · have hlast : Path ⟨cs', i :: resumes⟩ [stop] ⟨cs'.setIfInBounds i c', resumes⟩ :=
      .cons (hstop hpending resumes) (.nil _)
    exact Path.append (.cons (.began hi hwaits) (h.path (i :: resumes))) hlast
  · have hij : i ≠ j := by
      rintro rfl
      cases hi.symm.trans hd
      exact hwaits.ne_running hrunning
    rw [getElem?_set hpending, if_neg hij]
    refine h.pending ?_ hrunning
    rw [getElem?_set hi, if_neg hij]
    exact hd

end Runs
end
end Moment
end TreeScript
