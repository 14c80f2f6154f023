import TreeScript.Proofs.Coroutines.Lives
import TreeScript.Proofs.Hierarchy.Hosts
import TreeScript.Proofs.Logs.Fatal

/-
# The life cycle of coroutines

Coroutines take their turns in all that a host does, and what holds of turns holds of them.  A coroutine that
is resumed by a call that may not begin, while it runs, or after it is finished is left alone, and so is
everything else; one that waits runs its body, and is suspended if a `yield` leaves it and finished if anything
else does.  Between the requests to a host no coroutine runs.
-/

namespace TreeScript

open Exec

namespace Exec

/-! ## Resuming -/

/-- The coroutine whose body has ended. -/
def stopped (c : Coroutine) : Outcome Value → Coroutine
  | .signal (.yieldValue _ frames) => c.suspend frames
  | _ => c.finish

section
variable {n i : Nat} {s : State} {c : Coroutine}

theorem stopped_begun (c : Coroutine) (o : Outcome Value) : stopped c.begun o = stopped c o := by
  rcases o with _ | (_ | _ | _ | _ | _ | _) | _ <;> rfl

/-- What is left when a body has come to an outcome. -/
theorem endCall_leaveCoroutine (i : Nat) (outer : List ResumeFrame) (o : Outcome Value) (t : State) :
    (endCall (leaveCoroutine i outer (o, t))).1 = onErrors t.session.calls.attach (settled o) ∧
      (endCall (leaveCoroutine i outer (o, t))).2.heap =
        t.heap.setCoroutine i (stopped (t.heap.coroutine i) o) := by
  have houtcome : (leaveCoroutine i outer (o, t)).1 = settled o := by
    rcases o with _ | (_ | _ | _ | _ | _ | _) | _ <;> rfl
  refine ⟨?_, ?_⟩
  · unfold endCall
    rw [calls_leaveCoroutine, houtcome]
  · rcases o with _ | (_ | _ | _ | _ | _ | _) | _ <;> rfl

/-- A resume that may not begin changes nothing. -/
theorem resume_refused (hi : s.heap.coroutines[i]? = some c) {e : EvalError}
    (hpush : s.session.calls.push c.name = .error e) (n : Nat) :
    (resumeCoroutine i).run n s = (.signal (.error (s.session.calls.attach e)), s) := by
  obtain rfl := coroutine_eq hi
  exact resumeCoroutine_refused (evaluator n) hpush

/-- A coroutine that runs cannot be resumed, and nothing changes. -/
theorem resume_running (hi : s.heap.coroutines[i]? = some c) (hstate : c.state = .running)
    {calls : CallStack} (hpush : s.session.calls.push c.name = .ok calls) (n : Nat) :
    ∃ e, e.cause = .custom "coroutine is already running" ∧
      (resumeCoroutine i).run n s = (.signal (.error e), s) := by
  obtain rfl := coroutine_eq hi
  exact ⟨_, cause_attach calls _,
    resumeCoroutine_failed hpush (evaluator n) (Coroutine.begin?_of_running hstate)⟩

/-- A coroutine that is finished gives null, and nothing changes. -/
theorem resume_finished (hi : s.heap.coroutines[i]? = some c) (hstate : c.state = .finished)
    {calls : CallStack} (hpush : s.session.calls.push c.name = .ok calls) (n : Nat) :
    (resumeCoroutine i).run n s = (.value .null, s) := by
  obtain rfl := coroutine_eq hi
  exact resumeCoroutine_done hpush (evaluator n) (Coroutine.begin?_of_finished hstate)

/-- The state in which the body of a coroutine begins, or goes on. -/
def bodyState (i : Nat) (c : Coroutine) (calls : CallStack) (s : State) : State :=
  enterBody c.frames ((s.withCalls calls).withHeap (s.heap.setCoroutine i c.begun))

/-- A coroutine that waits runs its body, which suspends or finishes it. -/
theorem resume_waiting (hi : s.heap.coroutines[i]? = some c) (hwaits : c.Waits) {calls : CallStack}
    (hpush : s.session.calls.push c.name = .ok calls) (n : Nat) :
    ∃ o t, (eval c.body c.scope).run n (bodyState i c calls s) = (o, t) ∧ o.LeadsBack ∧
      t.heap.coroutines[i]? = some c.begun ∧
      (∃ trace, (∀ e, (trace e : EvalError).cause = e.cause) ∧
        ((resumeCoroutine i).run n s).1 = onErrors trace (settled o)) ∧
      ((resumeCoroutine i).run n s).2.heap.coroutines = t.heap.coroutines.setIfInBounds i (stopped c o) := by
  have K := Logic.ready_lives n
  obtain ⟨turns, r, hlives, -⟩ := K.eval (w := ()) trivial c.scope (bodyState i c calls s)
  have hrun : (eval c.body c.scope).run n (bodyState i c calls s) = r := hlives.eq_run.symm
  have hbegun : (bodyState i c calls s).heap.coroutines[i]? = some c.begun := by
    show (s.heap.coroutines.setIfInBounds i c.begun)[i]? = some c.begun
    rw [Moment.getElem?_set hi, if_pos rfl]
  have hpending := hlives.runs.pending hbegun rfl
  have hback := hlives.leadsBack
  obtain ⟨o, t⟩ := r
  -- the resume answers what the body has come to, and records where it has stopped
  have hresume : (resumeCoroutine i).run n s = endCall (leaveCoroutine i s.session.resume (o, t)) := by
    obtain rfl := coroutine_eq hi
    rw [← hrun]
    exact resumeCoroutine_begun hpush n (evaluateNode n) (Coroutine.begin?_of_waits hwaits)
  obtain ⟨hanswer, hheap⟩ := endCall_leaveCoroutine i s.session.resume o t
  refine ⟨o, t, hrun, hback, hpending, ⟨t.session.calls.attach, cause_attach _, ?_⟩, ?_⟩
  · rw [hresume, hanswer]
  · rw [hresume, hheap, coroutine_eq hpending, stopped_begun]
    rfl

end

/-! ## Runs -/

/-- In every evaluation from outside coroutines take their turns. -/
theorem lives_exec (n : Nat) (x : EntryPoint) : (Logic.lives n).Keeps x.exec := by
  have K := Logic.ready_lives n
  have hreset : ∀ f, (Logic.lives n).Keeps (modifySession f) := fun f =>
    Logic.lives_keeps (Logic.still_modifySession f)
  cases x with
  | evaluate node => exact fun _ => Logic.keeps_evaluate K (hreset _) trivial
  | evaluateIn node scope => exact fun _ => Logic.keeps_evaluateIn K scope (hreset _) trivial
  | callFunction name args => exact Logic.keeps_callFunction K name args (hreset _)

end Exec

/-! ## Hosts -/

/-- No coroutine runs, and exactly suspended ones have a way back. -/
def Moment.AtRest (cs : Array Coroutine) : Prop := AllKept cs ∧ ∀ i, ¬ Running cs i

theorem Moment.atRest_empty : AtRest #[] := by
  refine ⟨fun i c hc => ?_, fun i hi => ?_⟩
  · cases hc
  · obtain ⟨c, hc, -⟩ := hi
    cases hc

/-- Turns bring coroutines at rest back to rest. -/
theorem Moment.Runs.atRest {cs cs' : Array Coroutine} {turns : List Turn} (h : Runs cs turns cs')
    (hrest : AtRest cs) : AtRest cs' := by
  have hsound := (h.path []).sound (sound_start cs)
  refine ⟨hsound.kept hrest.1, fun i hi => ?_⟩
  rcases (hsound.running i).mp hi with hown | hbefore
  · cases hown
  · exact hrest.2 i hbefore

namespace Host

variable {host : Host}

/-- An evaluation in a session brings the coroutines of a host back to rest. -/
theorem atRest_runWith (h : Moment.AtRest host.heap.coroutines) (k fuel : Nat) (x : EntryPoint) :
    Moment.AtRest (host.runWith k (evaluator fuel) x.exec).2.heap.coroutines := by
  unfold runWith
  cases host.sessions[k]? with
  | none => exact h
  | some session =>
    obtain ⟨turns, r, hlives, -⟩ := lives_exec fuel x () ⟨host.heap, host.sites, [], session⟩
    have hruns := hlives.runs
    rw [hlives.eq_run] at hruns
    exact hruns.atRest h

/-- Between requests no coroutine of a host runs. -/
theorem Arises.atRest {given : ClassDef → Prop} (h : host.Arises given) :
    Moment.AtRest host.heap.coroutines := by
  induction h with
  | empty => exact Moment.atRest_empty
  | @answer host fuel r _ _ ih =>
    cases r with
    | evaluate k e => exact atRest_runWith ih k fuel (.evaluate e)
    | callFunction k name args => exact atRest_runWith ih k fuel (.callFunction name args)
    | _ => exact ih
  | register _ _ _ ih => exact ih
  | newCallable _ _ ih => exact ih

end Host

/-! ## The life cycle -/

/-- **Coroutines live from made to finished.**  Every evaluation takes coroutines through turns.  At every
moment of it exactly those coroutines run whose resumes are in progress, and exactly suspended ones have a way
back.  From one moment to the next a coroutine stays what it is, or moves from created or suspended to running
or from running to suspended or finished; while it runs nothing changes it before its own resume ends.  A resume
that may not begin, one of a running coroutine and one of a finished coroutine leave the whole state as it is,
and the latter gives null.  A resume that starts the body suspends the coroutine if the body yields, and
finishes it if the body ends in any other way.  Between the requests to a host no coroutine runs. -/
theorem coroutines_live :
    (∀ (fuel : Nat) (s : State), (∀ x : EntryPoint, ∃ turns r, Lives fuel x.exec s turns r) ∧
      ∀ i, ∃ turns r, Lives fuel (resumeCoroutine i) s turns r) ∧
    (∀ (fuel : Nat) (α : Type) (x : Exec α) (s : State) (turns : List Turn) (r : Outcome α × State),
      Lives fuel x s turns r → r = x.run fuel s ∧
        ∀ before after, turns = before ++ after → ∃ m,
          Moment.Path ⟨s.heap.coroutines, []⟩ before m ∧ Moment.Path m after ⟨r.2.heap.coroutines, []⟩ ∧
            Moment.Sound s.heap.coroutines m) ∧
    (∀ (m m' : Moment) (turn : Turn) (i : Nat) (c : Coroutine), m.Step turn m' →
      m.coroutines[i]? = some c → ∃ c', m'.coroutines[i]? = some c' ∧ (c' = c ∨ c.Moves c') ∧
        (c.state = .running → c' = c ∨ m.resumes = i :: m'.resumes)) ∧
    (∀ (fuel i : Nat) (s : State) (c : Coroutine), s.heap.coroutines[i]? = some c →
      (∀ e, s.session.calls.push c.name = .error e →
        (resumeCoroutine i).run fuel s = (.signal (.error (s.session.calls.attach e)), s)) ∧
      ∀ calls, s.session.calls.push c.name = .ok calls →
        (c.state = .running → ∃ e, e.cause = .custom "coroutine is already running" ∧
          (resumeCoroutine i).run fuel s = (.signal (.error e), s)) ∧
        (c.state = .finished → (resumeCoroutine i).run fuel s = (.value .null, s)) ∧
        (c.Waits → ∃ o t, (eval c.body c.scope).run fuel (bodyState i c calls s) = (o, t) ∧ o.LeadsBack ∧
          t.heap.coroutines[i]? = some c.begun ∧
          (∃ trace, (∀ e, (trace e : EvalError).cause = e.cause) ∧
            ((resumeCoroutine i).run fuel s).1 = onErrors trace (settled o)) ∧
          ((resumeCoroutine i).run fuel s).2.heap.coroutines =
            t.heap.coroutines.setIfInBounds i (stopped c o))) ∧
    ∀ (given : ClassDef → Prop) (host : Host), host.Arises given → Moment.AtRest host.heap.coroutines := by
  refine ⟨fun fuel s => ⟨fun x => ?_, fun i => ?_⟩, fun fuel α x s turns r hlives => ⟨hlives.eq_run, ?_⟩, ?_,
    ?_, fun given host h => h.atRest⟩
  · obtain ⟨turns, r, hlives, -⟩ := lives_exec fuel x () s
    exact ⟨turns, r, hlives⟩
  · obtain ⟨turns, r, hlives, -⟩ := Logic.keeps_resumeCoroutine (Logic.ready_lives fuel) i () s
    exact ⟨turns, r, hlives⟩
  · rintro before after rfl
    obtain ⟨m, hbefore, hafter⟩ := (hlives.runs.path []).split
    exact ⟨m, hbefore, hafter, hbefore.sound (Moment.sound_start _)⟩
  · intro m m' turn i c hstep hc
    obtain ⟨c', hc', hmoves⟩ := hstep.moves hc
    refine ⟨c', hc', hmoves, fun hrunning => ?_⟩
    refine (hstep.running hc hrunning).imp_left fun hkept => ?_
    exact Option.some.inj (hc'.symm.trans hkept)
  · intro fuel i s c hi
    refine ⟨fun e hpush => resume_refused hi hpush fuel, fun calls hpush => ⟨?_, ?_, ?_⟩⟩
    · exact fun hstate => resume_running hi hstate hpush fuel
    · exact fun hstate => resume_finished hi hstate hpush fuel
    · exact fun hwaits => resume_waiting hi hwaits hpush fuel

/-- A coroutine that yields and then resumes itself is suspended, and fails when it goes on. -/
example :
    let body : Node := .block [.yieldWith none, .call 0 "coroutine.resume" [.var "me"]]
    let made := (Heap.empty.newRoot.2.newCoroutine "self" [] body [] 0).2
    let s : State := ⟨made.declare 0 "me" .any (.coroutine 0), .empty, [],
      .new 1 0 ⟨.test, .buffer "", false, true, 64⟩⟩
    let t := ((resumeCoroutine 0).run 20 s).2
    let u := ((resumeCoroutine 0).run 20 t).2
    [s, t, u].map (fun s => ((s.heap.coroutine 0).state, (s.heap.coroutine 0).frames)) =
      [(.created, []), (.suspended, [.inBlock 0, .atYield]), (.finished, [])] := by
  decide +kernel

end TreeScript
