import TreeScript.Proofs.Balance
import TreeScript.Proofs.Coroutines.Moments
import TreeScript.Proofs.Generators.Stages
import TreeScript.Proofs.Requests

/-
# A coroutine is a generator

A coroutine is resumed any number of times, in states that the outside has made of those that the
resumes before left behind, where it may have changed everything but the coroutine itself.  The resumes
answer what the body yields and ends with when it is run once, straight through (`resumes_straight`).

The run straight through has no way back to follow, so nothing in it is skipped, repeated, or found at
another place than where it was left.
-/

namespace TreeScript

open Exec

/-! ## Resumes -/

/-- A coroutine while its body runs. -/
def Coroutine.running (c : Coroutine) : Coroutine := { c with state := .running, frames := [] }

/-- The state in which the body of a coroutine goes on, with its live calls. -/
def State.inside (i : Nat) (calls : CallStack) (s : State) : State :=
  enterBody [] ((s.withCalls calls).withHeap (s.heap.setCoroutine i (s.heap.coroutine i).running))

/-- The state in which the body goes on when a coroutine is resumed, unless there are too many live
calls for one more. -/
def State.opened (i : Nat) (s : State) : Option State :=
  match s.session.calls.push (s.heap.coroutine i).name with
  | .ok calls => some (s.inside i calls)
  | .error _ => none

/-- What a resume answers when the body has come to an outcome. -/
def closing (i : Nat) (s : State) (calls : CallStack) (r : Outcome Value × State) :
    Outcome Value × State :=
  (onErrors calls.attach (leaveCoroutine i s.session.resume r).1,
    (leaveCoroutine i s.session.resume r).2.withCalls s.session.calls)

/-- What resumes answer in given states, when the body comes to given outcomes one after the other: a
coroutine that is finished gives null, and one call too many fails. -/
def answers (i : Nat) : List (Outcome Value × State) → List State → List (Outcome Value × State)
  | _, [] => []
  | rs, s :: ss =>
    match s.session.calls.push (s.heap.coroutine i).name with
    | .error e => (.signal (.error (s.session.calls.attach e)), s) :: answers i rs ss
    | .ok calls =>
      match rs with
      | [] => (.value .null, s) :: answers i [] ss
      | r :: rs => closing i s calls r :: answers i rs ss

/-- The outcomes that a body comes to. -/
def Course.outcomes (course : Course Value) : List (Outcome Value × State) :=
  course.yields.map (fun y => (.signal (.yieldValue y.1 []), y.2)) ++ course.ends.toList

/-- The course of a run that is resumed in given states, the first of which begins it. -/
def Straight.course (x : Straight Value) : List State → Course Value
  | [] => ⟨[], none⟩
  | s :: outs => x s outs

/-- The outcomes that the body of a coroutine comes to when it is run straight through, in the states in
which it is resumed. -/
def straightThrough (n : Nat) (c : Coroutine) : List State → List (Outcome Value × State)
  | [] => []
  | s :: outs => (Straight.node n 0 c.body c.scope s outs).outcomes

/-- The outside changes everything but a coroutine between the states in which it is resumed. -/
def Untouched (n i : Nat) : Coroutine → List State → Prop
  | _, [] => True
  | c, s :: ss => s.heap.coroutine i = c ∧
      Untouched n i (((resumeCoroutine i).run n s).2.heap.coroutine i) ss

/-- What is recorded of a coroutine after it has been resumed in given states. -/
def recordAfter (n i : Nat) : Coroutine → List State → Coroutine
  | c, [] => c
  | _, s :: ss => recordAfter n i (((resumeCoroutine i).run n s).2.heap.coroutine i) ss

/-- An answer apart from the way back that the coroutine has recorded. -/
def withoutWay (i : Nat) (r : Outcome Value × State) : Outcome Value × State :=
  (r.1, r.2.withHeap (r.2.heap.setCoroutine i { r.2.heap.coroutine i with frames := [] }))

/-! ## One resume -/

theorem resume_closing (i n : Nat) (s : State) (calls : CallStack)
    (hcalls : s.session.calls.push (s.heap.coroutine i).name = .ok calls)
    (hwaits : (s.heap.coroutine i).Waits) :
    resumeCoroutine i (evaluator n) s =
      closing i s calls ((evaluator n).eval (s.heap.coroutine i).body (s.heap.coroutine i).scope
        ((s.inside i calls).withResume (s.heap.coroutine i).frames)) := by
  unfold evaluator
  rw [resumeCoroutine_begun hcalls n (evaluateNode n) (Coroutine.begin?_of_waits hwaits)]
  -- the body leaves the live calls as they were
  refine endCall_eq hcalls ?_
  rw [calls_leaveCoroutine]
  exact (evaluateNode_balanced n (s.heap.coroutine i).body (s.heap.coroutine i).scope _).calls

theorem answers_refused {i : Nat} {s : State} {e : EvalError}
    (h : s.session.calls.push (s.heap.coroutine i).name = .error e) (rs : List (Outcome Value × State))
    (ss : List State) :
    answers i rs (s :: ss) = (.signal (.error (s.session.calls.attach e)), s) :: answers i rs ss := by
  rw [answers, h]

theorem answers_nil {i : Nat} {s : State} {calls : CallStack}
    (h : s.session.calls.push (s.heap.coroutine i).name = .ok calls) (ss : List State) :
    answers i [] (s :: ss) = (.value .null, s) :: answers i [] ss := by
  rw [answers, h]

theorem answers_cons {i : Nat} {s : State} {calls : CallStack}
    (h : s.session.calls.push (s.heap.coroutine i).name = .ok calls) (r : Outcome Value × State)
    (rs : List (Outcome Value × State)) (ss : List State) :
    answers i (r :: rs) (s :: ss) = closing i s calls r :: answers i rs ss := by
  rw [answers, h]

/-! ## Before and after the body -/

section
variable {reads : ExpressionParser → Prop} {i : Nat} {s : State}

theorem Heap.coroutine_setCoroutine {h : Heap} (hlt : i < h.coroutines.size) (c : Coroutine) :
    (h.setCoroutine i c).coroutine i = c := by
  show (h.coroutines.setIfInBounds i c).getD i default = c
  rw [getD_setIfInBounds, if_pos ⟨rfl, hlt⟩]

theorem Heap.setCoroutine_setCoroutine (h : Heap) (c c' : Coroutine) :
    (h.setCoroutine i c).setCoroutine i c' = h.setCoroutine i c' := by
  show { h with coroutines := (h.coroutines.setIfInBounds i c).setIfInBounds i c' } = _
  rw [Array.setIfInBounds_setIfInBounds]
  rfl

/-- The body of a coroutine goes on in a calm state. -/
theorem State.Discreet.calm_inside (h : s.Discreet reads) (hlt : i < s.heap.coroutines.size)
    (calls : CallStack) :
    (s.inside i calls).Calm reads i (s.heap.coroutine i).running where
  resume := rfl
  hosted := h.congr rfl rfl rfl
  lt := by
    show i < (s.heap.coroutines.setIfInBounds i _).size
    rw [Array.size_setIfInBounds]
    exact hlt
  record := Heap.coroutine_setCoroutine hlt _

/-- A frame that is taken away does not depend on the way back. -/
theorem withResume_leaveFrame (t : State) (fs fs' : List ResumeFrame) :
    (leaveFrame (t.withResume fs)).withResume fs' = (leaveFrame t).withResume fs' := by
  obtain ⟨heap, sites, held, session⟩ := t
  obtain ⟨id, root, catalog, classes, pool, cancellation, parser, mode, meter, calls, frames, resume,
    output⟩ := session
  cases frames with
  | nil => rfl
  | cons frame rest => rcases frame with ⟨_ | slot, scope, _ | _, _ | _⟩ | _ <;> rfl

theorem closing_of_not_yield (calls : CallStack) {r : Outcome Value × State}
    (h : r.1.isYield = false) :
    closing i s calls r =
      (onErrors calls.attach (settled r.1),
        (finishCoroutine i ((leaveFrame r.2).withResume s.session.resume)).withCalls
          s.session.calls) := by
  rcases r with ⟨_ | (_ | _ | _ | _ | _ | _) | _, t⟩ <;> first | rfl | cases h

/-- What is left of the way back does not show when the body has been left. -/
theorem closing_rested (calls : CallStack) (r : Outcome Value × State) :
    closing i s calls (rested r) = closing i s calls r := by
  by_cases h : r.1.escapes = true
  · have hyield : r.1.isYield = false := by
      rcases r with ⟨_ | (_ | _ | _ | _ | _ | _) | _, t⟩ <;> first | rfl | cases h
    rw [closing_of_not_yield calls hyield,
      closing_of_not_yield calls (by rw [isYield_rested, hyield]), isYield_rested]
    unfold rested
    rw [if_pos h]
    rw [withResume_leaveFrame]
  · rw [rested_of_not_escapes h]

/-- What is recorded of a coroutine when its body has been left. -/
theorem coroutine_closing (calls : CallStack) {t : State} (hlt : i < t.heap.coroutines.size)
    (v : Value) (fs : List ResumeFrame) :
    (closing i s calls (.signal (.yieldValue v fs), t)).2.heap.coroutine i =
      (t.heap.coroutine i).suspend fs :=
  Heap.coroutine_setCoroutine hlt _

theorem coroutine_closing_of_not_yield (calls : CallStack) {r : Outcome Value × State}
    (h : r.1.isYield = false) (hlt : i < r.2.heap.coroutines.size) :
    (closing i s calls r).2.heap.coroutine i = (r.2.heap.coroutine i).finish := by
  rw [closing_of_not_yield calls h]
  exact Heap.coroutine_setCoroutine hlt _

/-- Apart from the way back, all suspensions are alike. -/
theorem withoutWay_closing (calls : CallStack) {t : State} (hlt : i < t.heap.coroutines.size)
    (v : Value) (fs : List ResumeFrame) :
    withoutWay i (closing i s calls (.signal (.yieldValue v fs), t)) =
      withoutWay i (closing i s calls (.signal (.yieldValue v []), t)) := by
  unfold withoutWay
  rw [coroutine_closing calls hlt, coroutine_closing calls hlt]
  show (_, State.withHeap _ ((t.heap.setCoroutine i _).setCoroutine i _)) =
    (_, State.withHeap _ ((t.heap.setCoroutine i _).setCoroutine i _))
  rw [Heap.setCoroutine_setCoroutine, Heap.setCoroutine_setCoroutine]
  rfl

end

/-! ## All resumes -/

/-- The course of a body that is to be resumed with a way back. -/
def Leg.course (again : Leg) (fs : List ResumeFrame) : List State → Course Value
  | [] => ⟨[], none⟩
  | s :: outs => driven again outs (again fs s)

theorem Leg.driven_yield (again : Leg) (outs : List State) (v : Value) (fs : List ResumeFrame)
    (t : State) :
    driven again outs (.signal (.yieldValue v fs), t) = (again.course fs outs).after [(v, t)] := by
  cases outs <;> rfl

section
variable {reads : ExpressionParser → Prop} {n i : Nat}

/-- A coroutine that is finished stays so. -/
theorem answers_finished {c : Coroutine} (hc : c.state = .finished) {ss : List State}
    (h : Untouched n i c ss) :
    ss.map (fun s => (resumeCoroutine i).run n s) = answers i [] ss := by
  induction ss with
  | nil => rfl
  | cons s ss ih =>
    obtain ⟨hrecord, hrest⟩ := h
    subst hrecord
    cases hcalls : s.session.calls.push (s.heap.coroutine i).name with
    | error e =>
      have hresume := resumeCoroutine_refused (evaluator n) hcalls
      have hnext := ih (by rw [run, hresume] at hrest; exact hrest)
      rw [List.map_cons, answers_refused hcalls, hnext, run, hresume]
    | ok calls =>
      have hresume := resumeCoroutine_done hcalls (evaluator n) (Coroutine.begin?_of_finished hc)
      have hnext := ih (by rw [run, hresume] at hrest; exact hrest)
      rw [List.map_cons, answers_nil hcalls, hnext, run, hresume]

/-- What is recorded of it stays so, too. -/
theorem recordAfter_finished {c : Coroutine} (hc : c.state = .finished) {ss : List State}
    (h : Untouched n i c ss) : recordAfter n i c ss = c := by
  induction ss with
  | nil => rfl
  | cons s ss ih =>
    obtain ⟨hrecord, hrest⟩ := h
    subst hrecord
    have hresume : ((resumeCoroutine i).run n s).2 = s := by
      cases hcalls : s.session.calls.push (s.heap.coroutine i).name with
      | error e => rw [run, resumeCoroutine_refused (evaluator n) hcalls]
      | ok calls => rw [run, resumeCoroutine_done hcalls (evaluator n) (Coroutine.begin?_of_finished hc)]
    rw [hresume] at hrest
    rw [recordAfter, hresume]
    exact ih hrest

/-- **One resume.**  If the course that is left is calm, a resume answers what comes next in it: either
the body waits again, and the rest of the course is left, or it has ended and the coroutine is
finished. -/
theorem resume_next {c : Coroutine} (hc : c.Waits) {s : State}
    (hrecord : s.heap.coroutine i = c) {calls : CallStack}
    (hcalls : s.session.calls.push c.name = .ok calls) {outs : List State}
    (hcalm : ((leg n 0 c.body c.scope).course c.frames (s.inside i calls :: outs)).Calm reads i
      c.running) :
    (∃ v fs t, (resumeCoroutine i).run n s = closing i s calls (.signal (.yieldValue v fs), t) ∧
      (leg n 0 c.body c.scope).course c.frames (s.inside i calls :: outs) =
        ((leg n 0 c.body c.scope).course fs outs).after [(v, t)] ∧
      ((leg n 0 c.body c.scope).course fs outs).Calm reads i c.running ∧
      i < t.heap.coroutines.size ∧
      ((resumeCoroutine i).run n s).2.heap.coroutine i = c.running.suspend fs) ∨
    ∃ r, (resumeCoroutine i).run n s = closing i s calls r ∧
      (leg n 0 c.body c.scope).course c.frames (s.inside i calls :: outs) = ⟨[], some r⟩ ∧
      ((resumeCoroutine i).run n s).2.heap.coroutine i = c.running.finish := by
  subst hrecord
  have hresume : (resumeCoroutine i).run n s = closing i s calls
      (leg n 0 (s.heap.coroutine i).body (s.heap.coroutine i).scope (s.heap.coroutine i).frames
        (s.inside i calls)) := resume_closing i n s calls hcalls hc
  rw [hresume]
  change (driven _ _ (leg n 0 _ _ _ _)).Calm reads i _ at hcalm
  show (∃ v fs t, _ ∧ driven _ _ (leg n 0 _ _ _ _) = _ ∧ _) ∨
    ∃ r, _ ∧ driven _ _ (leg n 0 _ _ _ _) = _ ∧ _
  generalize leg n 0 (s.heap.coroutine i).body (s.heap.coroutine i).scope
    (s.heap.coroutine i).frames (s.inside i calls) = r at hcalm ⊢
  cases hyield : r.1.isYield with
  | true =>
    rcases r with ⟨_ | (_ | _ | _ | ⟨v, fs⟩ | _ | _) | _, t⟩ <;> try cases hyield
    rw [Leg.driven_yield] at hcalm ⊢
    obtain ⟨hyields, hends⟩ := hcalm
    have ht := hyields (v, t) (List.mem_append_left _ List.mem_cons_self)
    refine Or.inl ⟨v, fs, t, rfl, rfl, ⟨fun y hy => hyields y (List.mem_append_right _ hy), hends⟩,
      ht.lt, ?_⟩
    rw [coroutine_closing calls ht.lt, ht.record]
  | false =>
    rw [driven_of_not_yield _ _ hyield] at hcalm ⊢
    obtain ⟨hyield', ht⟩ := hcalm.ends _ rfl
    refine Or.inr ⟨rested r, (closing_rested calls r).symm, rfl, ?_⟩
    rw [← closing_rested, coroutine_closing_of_not_yield calls hyield' ht.lt, ht.record]

/-- The resumes that are left, when the coroutine has a way back and the course that is left is calm. -/
theorem answers_course {c : Coroutine} (hc : c.Waits)
    {ss : List State} (huntouched : Untouched n i c ss)
    (hcalm : ((leg n 0 c.body c.scope).course c.frames (ss.filterMap (State.opened i))).Calm reads i
      c.running) :
    (ss.map fun s => withoutWay i ((resumeCoroutine i).run n s)) =
      (answers i ((leg n 0 c.body c.scope).course c.frames (ss.filterMap (State.opened i))).outcomes
        ss).map (withoutWay i) := by
  induction ss generalizing c with
  | nil => rfl
  | cons s ss ih =>
    obtain ⟨hrecord, hrest⟩ := huntouched
    cases hcalls : s.session.calls.push (s.heap.coroutine i).name with
    | error e =>
      -- the coroutine is not reached
      have hopened : State.opened i s = none := by rw [State.opened, hcalls]
      have hresume := resumeCoroutine_refused (evaluator n) hcalls
      rw [List.filterMap_cons_none hopened] at hcalm ⊢
      rw [run, hresume, hrecord] at hrest
      have hnext := ih hc hrest hcalm
      rw [List.map_cons, answers_refused hcalls, List.map_cons, hnext, run, hresume]
    | ok calls =>
      have hopened : State.opened i s = some (s.inside i calls) := by rw [State.opened, hcalls]
      rw [List.filterMap_cons_some hopened] at hcalm ⊢
      rcases resume_next hc hrecord (hrecord ▸ hcalls) hcalm with
        ⟨v, fs, t, hresume, hcourse, hcalm', hlt, hnext⟩ | ⟨r, hresume, hcourse, hnext⟩
      · rw [hnext] at hrest
        have hanswers := ih (c := c.running.suspend fs) (Or.inr rfl) hrest hcalm'
        rw [List.map_cons, hanswers, hcourse, hresume]
        show _ = (answers i ((.signal (.yieldValue v []), t) :: Course.outcomes _) (s :: ss)).map _
        rw [answers_cons hcalls, List.map_cons, withoutWay_closing calls hlt]
        rfl
      · rw [hnext] at hrest
        rw [List.map_cons, hcourse, hresume]
        show _ = (answers i [r] (s :: ss)).map _
        rw [answers_cons hcalls, List.map_cons, ← answers_finished rfl hrest, List.map_map]
        rfl

/-- A coroutine whose course ends while it is resumed is finished afterwards. -/
theorem finished_of_ends {c : Coroutine} (hc : c.Waits)
    {ss : List State} (huntouched : Untouched n i c ss)
    (hcalm : ((leg n 0 c.body c.scope).course c.frames (ss.filterMap (State.opened i))).Calm reads i
      c.running)
    (hends : ((leg n 0 c.body c.scope).course c.frames (ss.filterMap (State.opened i))).ends.isSome) :
    (recordAfter n i c ss).isFinished = true := by
  induction ss generalizing c with
  | nil => cases hends
  | cons s ss ih =>
    obtain ⟨hrecord, hrest⟩ := huntouched
    rw [recordAfter]
    cases hcalls : s.session.calls.push (s.heap.coroutine i).name with
    | error e =>
      -- a resume that is refused runs no leg of the course, and leaves the coroutine as it is
      have hopened : State.opened i s = none := by rw [State.opened, hcalls]
      rw [List.filterMap_cons_none hopened] at hcalm hends
      rw [run, resumeCoroutine_refused (evaluator n) hcalls, hrecord] at hrest ⊢
      exact ih hc hrest hcalm hends
    | ok calls =>
      have hopened : State.opened i s = some (s.inside i calls) := by rw [State.opened, hcalls]
      rw [List.filterMap_cons_some hopened] at hcalm hends
      -- the coroutine is suspended with the rest of its course, or has ended
      rcases resume_next hc hrecord (hrecord ▸ hcalls) hcalm with
        ⟨v, fs, t, _, hcourse, hcalm', _, hnext⟩ | ⟨r, _, _, hnext⟩
      · rw [hnext] at hrest ⊢
        rw [hcourse] at hends
        exact ih (c := c.running.suspend fs) (Or.inr rfl) hrest hcalm' hends
      · rw [hnext] at hrest ⊢
        rw [recordAfter_finished rfl hrest]
        rfl

/-- A resume changes nothing of a coroutine but where it is. -/
theorem running_resume {s : State} (hlt : i < s.heap.coroutines.size) (hs : s.Discreet reads)
    (hstate : (s.heap.coroutine i).state ≠ .running) :
    (((resumeCoroutine i).run n s).2.heap.coroutine i).running = (s.heap.coroutine i).running ∧
      (((resumeCoroutine i).run n s).2.heap.coroutine i).state ≠ .running := by
  cases hcalls : s.session.calls.push (s.heap.coroutine i).name with
  | error e =>
    rw [run, resumeCoroutine_refused (evaluator n) hcalls]
    exact ⟨rfl, hstate⟩
  | ok calls =>
    by_cases hfinished : (s.heap.coroutine i).state = .finished
    · rw [run, resumeCoroutine_done hcalls (evaluator n) (Coroutine.begin?_of_finished hfinished)]
      exact ⟨rfl, hstate⟩
    rw [run, resume_closing i n s calls hcalls (Coroutine.waits_of_ne hstate hfinished)]
    -- whatever the body does, the record of the coroutine is the one that it began with
    have hbegin := (hs.calm_inside hlt calls).withResume (s.heap.coroutine i).frames
    have hagrees : (Invariant.calm reads i (s.heap.coroutine i).running).toSimulation.Agrees
        (evaluator n) (evaluator n) ⟨(s.heap.coroutine i).frames, false⟩
        (eval (s.heap.coroutine i).body (s.heap.coroutine i).scope)
        (eval (s.heap.coroutine i).body (s.heap.coroutine i).scope) :=
      (ready_calm rfl n).eval nofun rfl
    rcases Invariant.eq_of_ends (fun _ h => h) (hagrees _ _ (Invariant.rel_self hbegin)) with
      ⟨hlax, _⟩ | ⟨_, w', _, hrecord, _⟩
    · exact hlax.elim
    change Activation.Holds reads _ i _ w'.way ((evaluator n).eval _ _ _).2 at hrecord
    generalize (evaluator n).eval (s.heap.coroutine i).body (s.heap.coroutine i).scope _ = r
      at hrecord ⊢
    cases hyield : r.1.isYield with
    | true =>
      rcases r with ⟨_ | (_ | _ | _ | ⟨v, fs⟩ | _ | _) | _, t⟩ <;> try cases hyield
      rw [coroutine_closing calls hrecord.lt, hrecord.record]
      exact ⟨rfl, nofun⟩
    | false =>
      rw [coroutine_closing_of_not_yield calls hyield hrecord.lt, hrecord.record]
      exact ⟨rfl, nofun⟩

/-- What is recorded of an untouched coroutine stays the same but for where it is. -/
theorem Untouched.running_eq {c : Coroutine} (hc : c.state ≠ .running) {ss : List State}
    (hstates : ∀ s ∈ ss, i < s.heap.coroutines.size ∧ s.Discreet reads) (h : Untouched n i c ss) :
    ∀ s ∈ ss, (s.heap.coroutine i).running = c.running := by
  induction ss generalizing c with
  | nil => exact fun _ hs => by cases hs
  | cons s ss ih =>
    obtain ⟨rfl, hrest⟩ := h
    obtain ⟨hlt, hdiscreet⟩ := hstates s List.mem_cons_self
    obtain ⟨hrunning, hstate⟩ := running_resume hlt hdiscreet hc
    intro t ht
    rcases List.mem_cons.mp ht with rfl | ht
    · rfl
    · have hnext := ih hstate (fun u hu => hstates u (List.mem_cons_of_mem _ hu)) hrest t ht
      exact hnext.trans hrunning

/-- The body of an untouched coroutine goes on in calm states. -/
theorem Untouched.calm_opened {c : Coroutine} (hc : c.state ≠ .running) {ss : List State}
    (hstates : ∀ s ∈ ss, i < s.heap.coroutines.size ∧ s.Discreet reads) (h : Untouched n i c ss) :
    ∀ t ∈ ss.filterMap (State.opened i), t.Calm reads i c.running := by
  intro t ht
  obtain ⟨s, hs, hst⟩ := List.mem_filterMap.mp ht
  obtain ⟨hlt, hdiscreet⟩ := hstates s hs
  unfold State.opened at hst
  split at hst
  · cases hst
    rw [← h.running_eq hc hstates s hs]
    exact hdiscreet.calm_inside hlt _
  · cases hst

/-- The legs of the body of a coroutine that has not begun make up its course straight through. -/
theorem Follows.course {c : Coroutine} {kind : Node → Prop} {run : Nat → Node → Nat → Straight Value}
    (hfollows : Follows reads i c.running kind run n) (hframes : c.frames = []) (hbody : kind c.body)
    {states : List State} (hstates : ∀ t ∈ states, t.Calm reads i c.running) :
    (leg n 0 c.body c.scope).course c.frames states = (run 0 c.body c.scope).course states ∧
      ((run 0 c.body c.scope).course states).Calm reads i c.running := by
  rw [hframes]
  cases states with
  | nil => exact ⟨rfl, ⟨fun _ hy => (List.not_mem_nil hy).elim, fun _ hr => by cases hr⟩⟩
  | cons s outs =>
    have hs := hstates s List.mem_cons_self
    have htracks := hfollows 0 c.body c.scope outs s hbody hs fun t ht =>
      hstates t (List.mem_cons_of_mem _ ht)
    refine ⟨?_, htracks.calm⟩
    show driven _ outs (evaluateNode n c.body c.scope (s.withResume [])) = _
    rw [hs.withResume_nil]
    exact htracks.eq

/-- **A coroutine is a generator.**  Take a coroutine that has not begun, in whose body every `yield`
stands where a statement stands, and any number of states in which it is resumed: between the resumes
the outside may have changed everything but the coroutine.  Then each resume answers, and leaves behind,
what the body run once and straight through yields or ends with there.  Only the way back that the
coroutine records while it is suspended is left out of the comparison. -/
theorem resumes_straight {c : Coroutine} (hc : c.state = .created) (hframes : c.frames = [])
    (hbody : c.body.Staged reads) {ss : List State}
    (hstates : ∀ s ∈ ss, i < s.heap.coroutines.size ∧ s.Discreet reads)
    (huntouched : Untouched n i c ss) :
    (ss.map fun s => withoutWay i ((resumeCoroutine i).run n s)) =
      (answers i (straightThrough n c (ss.filterMap (State.opened i))) ss).map (withoutWay i) := by
  have hopened := huntouched.calm_opened (by rw [hc]; nofun) hstates
  obtain ⟨hcourse, hcalm⟩ := (follows rfl n).course hframes hbody hopened
  have hthrough : ∀ states, ((Straight.node n 0 c.body c.scope).course states).outcomes =
      straightThrough n c states := fun states => by cases states <;> rfl
  rw [answers_course (Or.inl hc) huntouched (by rw [hcourse]; exact hcalm), hcourse, hthrough]

end

/-! ## A loop of yields -/

/-- A session without native functions of the host is discreet. -/
theorem State.discreet_of_noNative {reads : ExpressionParser → Prop} {s : State}
    (hcatalog : s.session.catalog.slots.all (fun f => !f.isNative) = true)
    (hcallables : s.heap.callables.size = 0) (hparser : s.session.parser?.isNone = true) :
    s.Discreet reads where
  catalog slot f hf := by
    obtain ⟨hlt, heq⟩ := Array.getElem?_eq_some_iff.mp hf
    have hnative := Array.all_eq_true.mp hcatalog slot hlt
    rw [heq, Bool.not_eq_true'] at hnative
    exact Function.evaluates_of_isNative hnative
  callable i f hf := by
    rw [Heap.callable, Array.eq_empty_of_size_eq_zero hcallables] at hf
    cases hf
  parser parse hp := by
    rw [hp] at hparser
    cases hparser

/-- A body that yields the numbers of a loop and ends with a text. -/
def numbersBody : Node :=
  .block [.forRange "k" .int (.literal (.int 1)) (.literal (.int 2)) .up
      (.block [.yieldWith (some (.var "k"))]), .literal (.str "end")]

/-- A session with a coroutine over this body. -/
def numbersState : State :=
  ⟨(Heap.empty.newRoot.2.newCoroutine "numbers" [] numbersBody [] Heap.empty.newRoot.1).2, .empty, [],
    .new 1 Heap.empty.newRoot.1 Host.bare⟩

/-- The coroutine is resumed, and then a global variable is declared. -/
def resumeAndDeclare (s : State) : State :=
  let t := ((resumeCoroutine 0).run 20 s).2
  t.withHeap (t.heap.declare 0 "x" .int (.int 7))

/-- Four states in which the coroutine is resumed. -/
def numbersStates : List State :=
  [numbersState, resumeAndDeclare numbersState, resumeAndDeclare (resumeAndDeclare numbersState),
    resumeAndDeclare (resumeAndDeclare (resumeAndDeclare numbersState))]

theorem staged_numbersBody (reads : ExpressionParser → Prop) : numbersBody.Staged reads := by
  have hliteral : ∀ l, (Node.literal l).YieldFree reads := Node.free_literal fun _ => rfl
  have hloop : (Node.block [.yieldWith (some (.var "k"))]).Staged reads := by
    refine .block fun e he => ?_
    cases List.mem_singleton.mp he
    refine .yieldWith fun v hv => ?_
    cases hv
    exact Node.free_of_leaf rfl rfl nofun
  refine .block fun e he => ?_
  rcases List.mem_cons.mp he with rfl | he
  · exact .forRange (hliteral _) (hliteral _) hloop
  · cases List.mem_singleton.mp he
    exact .yieldFree (hliteral _)

/-- The coroutine yields the two numbers, ends with the text, and gives null from then on. -/
theorem resumes_straight_numbers :
    (numbersStates.map fun s => withoutWay 0 ((resumeCoroutine 0).run 20 s)) =
        (answers 0 (straightThrough 20 (numbersState.heap.coroutine 0)
          (numbersStates.filterMap (State.opened 0))) numbersStates).map (withoutWay 0) ∧
      numbersStates.map (fun s => ((resumeCoroutine 0).run 20 s).1.value?) =
        [some (.int 1), some (.int 2), some (.str "end"), some .null] := by
  have hstates : ∀ s ∈ numbersStates,
      0 < s.heap.coroutines.size ∧ s.Discreet fun _ => False := by
    intro s hs
    simp only [numbersStates, List.mem_cons, List.not_mem_nil, or_false] at hs
    rcases hs with rfl | rfl | rfl | rfl <;>
      exact ⟨by decide +kernel, State.discreet_of_noNative (by decide +kernel) (by decide +kernel)
        (by decide +kernel)⟩
  exact ⟨resumes_straight rfl rfl (staged_numbersBody _) hstates ⟨rfl, rfl, rfl, rfl, trivial⟩,
    by decide +kernel⟩

end TreeScript
