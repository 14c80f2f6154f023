import TreeScript.Proofs.Coroutines.LifeCycle
import TreeScript.Proofs.Generators.Resumes
import TreeScript.Proofs.Isolation.Bodies

/-
# Resumes, alone and in company

Between the requests to it, a coroutine stands at the same place alone and in company: it is recorded alike, and
its scopes and slots are twins.  A request is answered alike, and leaves it so; in company it leaves the storage
of all others as it was.
-/

namespace TreeScript

open Exec

/-- What a coroutine was made from. -/
def Coroutine.start (c : Coroutine) : Start := ⟨c.name, c.params, c.body, c.args, c.origin⟩

namespace Start

variable (a : Start) (h : Heap)

theorem coroutines_make : (a.make h).2.coroutines =
    h.coroutines.push ⟨a.name, a.params, a.args, a.body, a.origin, h.scopes.size, .created, []⟩ :=
  h.coroutines_newCoroutine a.name a.params a.body a.args a.origin

theorem make_fst : (a.make h).1 = h.coroutines.size :=
  (h.newScope a.origin).2.declareAll_eq (p := fun h => h.coroutines.size) (fun _ _ _ => rfl) _ _ _

theorem lt_make : (a.make h).1 < (a.make h).2.coroutines.size := by
  rw [make_fst, coroutines_make, Array.size_push]
  exact Nat.lt_succ_self _

theorem coroutine_make : (a.make h).2.coroutine (a.make h).1 =
    ⟨a.name, a.params, a.args, a.body, a.origin, h.scopes.size, .created, []⟩ := by
  rw [make_fst, Heap.coroutine, coroutines_make, getD_push_size]

end Start

namespace Exec

/-! ## One resume -/

/-- A resume of a coroutine that waits runs its body. -/
theorem resume_waits {i : Nat} {s : State} {calls : CallStack} (n : Nat)
    (evaluate : Node → Nat → State → Outcome Value × State)
    (hpush : s.session.calls.push (s.heap.coroutine i).name = .ok calls)
    (hwaits : (s.heap.coroutine i).Waits) {body : Node} (hbody : (s.heap.coroutine i).body = body) :
    resumeCoroutine i (.untraced n evaluate) s =
      endCall (leaveCoroutine i s.session.resume
        (evaluate body (s.heap.coroutine i).scope (bodyState i (s.heap.coroutine i) calls s))) := by
  rw [← hbody]
  exact resumeCoroutine_begun hpush n evaluate (Coroutine.begin?_of_waits hwaits)

theorem conditions_ended (i : Nat) (outer : List ResumeFrame) (r : Outcome Value × State) :
    (endCall (leaveCoroutine i outer r)).2.conditions = r.2.conditions := by
  have hleave : (leaveFrame r.2).conditions = r.2.conditions := by
    obtain ⟨_, _, _, ⟨_, _, _, _, _, _, _, _, _, _, frames, _, _⟩⟩ := r.2
    rcases frames with _ | ⟨⟨_ | slot, c, _ | _, _ | _⟩ | _, rest⟩ <;> rfl
  rcases r with ⟨_ | (_ | _ | _ | _ | _ | _) | _, t⟩ <;> exact hleave

end Exec

namespace Isolation

/-! ## Standing at the same place -/

/-- Coroutines that were made from the same and stand at the same place. -/
structure World.SameRecord (w : World) (c c' : Coroutine) : Prop where
  start : c.start = c'.start
  state : c.state = c'.state
  scope : w.scope c.scope c'.scope
  frames : List.Forall₂ w.SameFrame c.frames c'.frames

/-- A coroutine that has been made: in the state that its own run has come to, and in company. -/
structure Member where
  start : Start
  world : World
  /-- The state that its own run has come to. -/
  alone : State
  /-- Its number in its own run, and its number in company. -/
  id : Nat
  id' : Nat

/-- A coroutine stands at the same place alone and in company. -/
structure Member.Stands (m : Member) (s' : State) : Prop where
  twins : Twins m.start.origin m.world m.alone.heap s'.heap
  conditions : m.alone.conditions = s'.conditions
  lt : m.id < m.alone.heap.coroutines.size
  lt' : m.id' < s'.heap.coroutines.size
  start : (m.alone.heap.coroutine m.id).start = m.start
  record : m.world.SameRecord (m.alone.heap.coroutine m.id) (s'.heap.coroutine m.id')

/-- What is done in company to one coroutine leaves the storage of others as it was. -/
structure Spares (own ownSlot : Nat → Prop) (i : Nat) (s t : State) : Prop where
  kept : Kept own ownSlot s.heap t.heap
  size : s.heap.coroutines.size ≤ t.heap.coroutines.size
  coroutine : ∀ j < s.heap.coroutines.size, j ≠ i → t.heap.coroutine j = s.heap.coroutine j
  conditions : t.conditions = s.conditions

section
variable {own ownSlot : Nat → Prop} {h h' h'' : Heap} {origin : Nat} {w : World} {s t : State} {i : Nat}

theorem Kept.refl (own ownSlot : Nat → Prop) (h : Heap) : Kept own ownSlot h h :=
  ⟨Nat.le_refl _, Nat.le_refl _, fun _ _ _ => rfl, fun _ _ _ => rfl⟩

/-- Twins stay twins if none of what is owned changes. -/
theorem Twins.kept (T : Twins origin w h h') (K : Kept own ownSlot h' h'')
    (hown : ∀ c, w.Owns c → ¬ own c) (hslot : ∀ i, w.OwnsSlot i → ¬ ownSlot i) : Twins origin w h h'' := by
  have hscope : ∀ {c c'}, w.scope c c' → h''.scope c' = h'.scope c' := fun hc =>
    K.scope _ (T.scope_lt hc).2 (hown _ ⟨_, hc⟩)
  refine ⟨T.known, T.inside, ?_, T.scope_unique, ?_, ?_, ?_, T.slot_unique, ?_⟩
  · exact fun hc => ⟨(T.scope_lt hc).1, Nat.lt_of_lt_of_le (T.scope_lt hc).2 K.scopes_le⟩
  · intro c c' hc
    rw [Heap.chain, Heap.chain, hscope hc]
    exact T.around hc
  · intro c c' hc x
    rw [Heap.lookupLocal, Heap.lookupLocal, hscope hc]
    exact T.bound hc x
  · exact fun hi => ⟨(T.slot_lt hi).1, Nat.lt_of_lt_of_le (T.slot_lt hi).2 K.slots_le⟩
  · intro i i' hi
    rw [K.slot i' (T.slot_lt hi).2 (hslot _ ⟨i, hi⟩)]
    exact T.slot hi

/-- A coroutine does not notice what is done to another. -/
theorem Member.Stands.spared {m : Member} (hm : m.Stands s) (hspares : Spares own ownSlot i s t)
    (hid : m.id' ≠ i) (hown : ∀ c, m.world.Owns c → ¬ own c) (hslot : ∀ i, m.world.OwnsSlot i → ¬ ownSlot i) :
    m.Stands t where
  twins := hm.twins.kept hspares.kept hown hslot
  conditions := hm.conditions.trans hspares.conditions.symm
  lt := hm.lt
  lt' := Nat.lt_of_lt_of_le hm.lt' hspares.size
  start := hm.start
  record := by
    rw [hspares.coroutine m.id' hm.lt' hid]
    exact hm.record

end

/-! ## Making a coroutine -/

/-- Parameters are bound alike. -/
theorem Twins.declareAll {origin : Nat} {before : Heap} {c c' : Nat} (params : List Param)
    (args : List Value) {w : World} {h h' : Heap} (T : Twins origin w h h')
    (K : Kept w.Owns w.OwnsSlot before h') (hc : w.scope c c') :
    ∃ w' : World, w.Le before w' ∧ Twins origin w' (h.declareAll c params args) (h'.declareAll c' params args) ∧
      Kept w'.Owns w'.OwnsSlot before (h'.declareAll c' params args) := by
  unfold Heap.declareAll
  generalize params.zip args = pairs
  induction pairs generalizing w h h' with
  | nil => exact ⟨w, .refl before w, T, K⟩
  | cons p pairs ih =>
    have hle : w.Le before (w.addSlot h.slots.size h'.slots.size) := .addSlot K.slots_le
    have T₁ : Twins origin (w.addSlot h.slots.size h'.slots.size) (h.declare c p.1.name p.1.type p.2)
        (h'.declare c' p.1.name p.1.type p.2) := T.declareSlot hc _ ⟨rfl, rfl, fun _ => rfl⟩
    have K₁ : Kept (w.addSlot h.slots.size h'.slots.size).Owns (w.addSlot h.slots.size h'.slots.size).OwnsSlot
        before (h'.declare c' p.1.name p.1.type p.2) :=
      ((K.mono (fun _ ⟨a, ha⟩ => ⟨a, hle.scope ha⟩) fun _ ⟨a, ha⟩ => ⟨a, hle.slot ha⟩).pushSlot _).modifyScope
        ⟨c, hc⟩ _
    -- the slots of the first parameter are twins in a larger world, in which the rest is declared
    obtain ⟨w', hle', T', K'⟩ := ih T₁ K₁ (hle.scope hc)
    exact ⟨w', hle.trans hle', T', K'⟩

/-- A coroutine that has been made alone and in company. -/
def Member.made (a : Start) (w : World) (s s' : State) : Member :=
  ⟨a, w, s.withHeap (a.make s.heap).2, (a.make s.heap).1, (a.make s'.heap).1⟩

/-- A coroutine that is made stands at its beginning, and all that it owns is new. -/
theorem stands_made (a : Start) {s s' : State} (horigin : a.origin < s.heap.scopes.size)
    (hconditions : s.conditions = s'.conditions) :
    ∃ w : World, World.empty.Le s'.heap w ∧ (Member.made a w s s').Stands (s'.withHeap (a.make s'.heap).2) ∧
      Spares w.Owns w.OwnsSlot (a.make s'.heap).1 s' (s'.withHeap (a.make s'.heap).2) := by
  have hempty : Twins a.origin .empty s.heap s'.heap := .empty horigin
  have hle : World.empty.Le s'.heap (World.empty.addScope s.heap.scopes.size s'.heap.scopes.size) :=
    .addScope (Nat.le_refl _)
  obtain ⟨w, hle', T, K⟩ := (hempty.firstScope a.origin).declareAll a.params a.args
    ((Kept.refl _ _ s'.heap).pushScope _) (Or.inl ⟨rfl, rfl⟩)
  refine ⟨w, hle.trans hle', ?_, { K with }, ?_, fun j hj _ => ?_, rfl⟩
  · refine ⟨{ T with }, hconditions, a.lt_make s.heap, a.lt_make s'.heap, ?_, ?_⟩
    · show ((a.make s.heap).2.coroutine (a.make s.heap).1).start = a
      rw [a.coroutine_make]
      rfl
    · show w.SameRecord ((a.make s.heap).2.coroutine (a.make s.heap).1)
        ((a.make s'.heap).2.coroutine (a.make s'.heap).1)
      rw [a.coroutine_make, a.coroutine_make]
      exact ⟨rfl, rfl, hle'.scope (Or.inl ⟨rfl, rfl⟩), .nil⟩
  · show s'.heap.coroutines.size ≤ (a.make s'.heap).2.coroutines.size
    rw [a.coroutines_make, Array.size_push]
    exact Nat.le_succ _
  · show (a.make s'.heap).2.coroutines.getD j default = _
    rw [a.coroutines_make, getD_push_lt _ _ hj]
    rfl

/-! ## Answering -/

section
variable {origin : Nat} {b b' : State} {w : World} {c c' : Coroutine}

theorem World.SameRecord.mono {w' : World} (h : w.SameRecord c c')
    (hscope : ∀ {a a'}, w.scope a a' → w'.scope a a') : w'.SameRecord c c' :=
  ⟨h.start, h.state, hscope h.scope, h.frames.imp fun _ _ hf => hf.mono hscope⟩

theorem start_stopped (c : Coroutine) (o : Outcome Value) : (stopped c o).start = c.start := by
  rcases o with _ | (_ | _ | _ | _ | _ | _) | _ <;> rfl

/-- Bodies that end alike leave coroutines at the same place. -/
theorem ends_stopped {A : World → Value → Value → Prop} (hA : ∀ {w v v'}, A w v v' → v = v')
    {r r' : Outcome Value × State} (h : (company origin b b').Ends w A r r') (hstop : r.1.isStopped = false) :
    ∃ w' : World, w.Le b'.heap w' ∧ Rel origin b b' w' r.2 r'.2 ∧ settled r.1 = settled r'.1 ∧
      ∀ {c c'}, w'.SameRecord c c' → w'.SameRecord (stopped c r.1) (stopped c' r'.1) := by
  have hfinish : ∀ {w' : World} {c c'}, w'.SameRecord c c' → w'.SameRecord c.finish c'.finish :=
    fun hc => ⟨hc.start, rfl, hc.scope, .nil⟩
  cases h with
  | value hle hrel hv => exact ⟨_, hle, hrel, congrArg (fun v => settled (.value v)) (hA hv), hfinish⟩
  | signal hg hrel =>
    cases hg with
    | yieldValue v hle hway => exact ⟨_, hle, hrel, rfl, fun hc => ⟨hc.start, rfl, hc.scope, hway⟩⟩
    | breakLoop v hle => exact ⟨_, hle, hrel, rfl, hfinish⟩
    | continueLoop hle => exact ⟨_, hle, hrel, rfl, hfinish⟩
    | returnValue v hle => exact ⟨_, hle, hrel, rfl, hfinish⟩
    | throwValue v hle => exact ⟨_, hle, hrel, rfl, hfinish⟩
    | error e hle => exact ⟨_, hle, hrel, rfl, hfinish⟩
  | halted k hle hrel => exact ⟨_, hle, hrel, rfl, hfinish⟩
  | stopped t r _ => cases hstop

end

/-- A body that changes no coroutine leaves the one whose body it is as its outcome says, and no other. -/
theorem coroutines_ended {h h' : Heap} {i : Nat} (hi : i < h.coroutines.size) {c : Coroutine}
    (hbody : h'.coroutines = h.coroutines.setIfInBounds i c.begun) (o : Outcome Value) :
    (h'.setCoroutine i (stopped (h'.coroutine i) o)).coroutine i = stopped c o ∧
      (h'.setCoroutine i (stopped (h'.coroutine i) o)).coroutines.size = h.coroutines.size ∧
      ∀ j ≠ i, (h'.setCoroutine i (stopped (h'.coroutine i) o)).coroutine j = h.coroutine j := by
  have hsize : h'.coroutines.size = h.coroutines.size := by
    rw [hbody]
    exact Array.size_setIfInBounds
  have hbegun : h'.coroutine i = c.begun := by
    rw [Heap.coroutine, hbody]
    exact Heap.coroutine_setCoroutine hi c.begun
  refine ⟨?_, ?_, fun j hj => ?_⟩
  · rw [Heap.coroutine_setCoroutine (hsize ▸ hi), hbegun, stopped_begun]
  · exact Array.size_setIfInBounds.trans hsize
  · show (h'.coroutines.setIfInBounds i _).getD j default = _
    rw [getD_setIfInBounds, if_neg fun h => hj h.1.symm, hbody, getD_setIfInBounds,
      if_neg fun h => hj h.1.symm]
    rfl

/-- What a question leaves of a coroutine that has stood at the same place. -/
structure Member.Leaves (m : Member) (s' t t' : State) (w : World) : Prop where
  le : m.world.Le s'.heap w
  stands : Stands { m with world := w, alone := t } t'
  spares : Spares w.Owns w.OwnsSlot m.id' s' t'

namespace Member.Stands

variable {m : Member} {s' : State}

/-- Where the caller stands does not matter to a coroutine. -/
theorem enter (hm : m.Stands s') (caller : Caller) :
    m.Leaves s' (caller.enter m.alone) (caller.enter s') m.world where
  le := .refl _ _
  stands := ⟨hm.twins, hm.conditions, hm.lt, hm.lt', hm.start, hm.record⟩
  spares := ⟨.refl _ _ _, Nat.le_refl _, fun _ _ _ => rfl, rfl⟩

/-- No conditions change where a body is entered. -/
theorem conditions_body (i : Nat) (c : Coroutine) (calls : CallStack) (caller : Caller) (s : State) :
    (bodyState i c calls (caller.enter s)).conditions = s.conditions := by
  have hbody : ∀ s : State, (bodyState i c calls s).conditions = s.conditions := fun _ => rfl
  have henter : (caller.enter s).conditions = s.conditions := rfl
  rw [hbody, henter]

/-- The bodies go on at the same place. -/
theorem bodies (hm : m.Stands s') (caller : Caller) (calls : CallStack) :
    Rel m.start.origin
      (bodyState m.id (m.alone.heap.coroutine m.id) calls (caller.enter m.alone))
      (bodyState m.id' (s'.heap.coroutine m.id') calls (caller.enter s')) m.world
      (bodyState m.id (m.alone.heap.coroutine m.id) calls (caller.enter m.alone))
      (bodyState m.id' (s'.heap.coroutine m.id') calls (caller.enter s')) where
  toTwins := { hm.twins with }
  coroutines := rfl
  coroutines' := rfl
  kept := .refl _ _ _
  conditions := by
    rw [conditions_body, conditions_body]
    exact hm.conditions
  conditions' := rfl
  steps := rfl
  calls := rfl
  way := hm.record.frames

theorem isStopped_ended (i : Nat) (outer : List ResumeFrame) (r : Outcome Value × State) :
    (endCall (leaveCoroutine i outer r)).1.isStopped = r.1.isStopped := by
  obtain ⟨o, t⟩ := r
  rw [(endCall_leaveCoroutine i outer o t).1]
  rcases o with _ | (_ | _ | _ | _ | _ | _) | _ <;> rfl

/-- A coroutine whose bodies have ended alike answers the same, and stands at the same place again. -/
theorem ended (hm : m.Stands s') {caller : Caller} {calls : CallStack} {outer outer' : List ResumeFrame}
    {A : World → Value → Value → Prop} (hA : ∀ {w v v'}, A w v v' → v = v') {r r' : Outcome Value × State}
    (hends : (company m.start.origin
      (bodyState m.id (m.alone.heap.coroutine m.id) calls (caller.enter m.alone))
      (bodyState m.id' (s'.heap.coroutine m.id') calls (caller.enter s'))).Ends m.world A r r')
    (hstop : r.1.isStopped = false) :
    (endCall (leaveCoroutine m.id outer r)).1 = (endCall (leaveCoroutine m.id' outer' r')).1 ∧
      ∃ w, m.Leaves s' (endCall (leaveCoroutine m.id outer r)).2
        (endCall (leaveCoroutine m.id' outer' r')).2 w := by
  obtain ⟨w, hle, hrel, hsettled, hrecord⟩ := ends_stopped hA hends hstop
  obtain ⟨o, t⟩ := r
  obtain ⟨o', t'⟩ := r'
  obtain ⟨hanswer, hheap⟩ := endCall_leaveCoroutine m.id outer o t
  obtain ⟨hanswer', hheap'⟩ := endCall_leaveCoroutine m.id' outer' o' t'
  have hconditions := conditions_ended m.id outer (o, t)
  have hconditions' := conditions_ended m.id' outer' (o', t')
  generalize endCall (leaveCoroutine m.id outer (o, t)) = q at *
  generalize endCall (leaveCoroutine m.id' outer' (o', t')) = q' at *
  obtain ⟨hself, hsize, -⟩ := coroutines_ended hm.lt hrel.coroutines o
  obtain ⟨hself', hsize', hothers⟩ := coroutines_ended hm.lt' hrel.coroutines' o'
  rw [← hheap] at hself hsize
  rw [← hheap'] at hself' hsize' hothers
  have hbefore : t'.conditions = s'.conditions := by
    rw [hrel.conditions', conditions_body]
  refine ⟨?_, w, ⟨hle.scope, hle.slot, hle.newScope, hle.newSlot⟩, ⟨?_, ?_, ?_, ?_, ?_, ?_⟩, ?_, ?_, ?_, ?_⟩
  · rw [hanswer, hanswer', hsettled, hrel.calls]
  · rw [hheap, hheap']
    exact { hrel.toTwins with }
  · rw [hconditions, hconditions', hrel.conditions]
  · exact hsize.symm ▸ hm.lt
  · exact hsize'.symm ▸ hm.lt'
  · show (q.2.heap.coroutine m.id).start = m.start
    rw [hself, ← hm.start, start_stopped]
  · show w.SameRecord (q.2.heap.coroutine m.id) (q'.2.heap.coroutine m.id')
    rw [hself, hself']
    exact hrecord (hm.record.mono hle.scope)
  · rw [hheap']
    exact { hrel.kept with }
  · exact Nat.le_of_eq hsize'.symm
  · exact fun j _ hj => hothers j hj
  · rw [hconditions', hbefore]

/-- A coroutine whose body goes on answers the same, and stands at the same place again. -/
theorem goOn (hm : m.Stands s') (caller : Caller) (fuel : Nat) {calls : CallStack}
    (hpush : caller.calls.push (m.alone.heap.coroutine m.id).name = .ok calls)
    (hpush' : caller.calls.push (s'.heap.coroutine m.id').name = .ok calls)
    (hwaits : (m.alone.heap.coroutine m.id).Waits) {r r' : Outcome Value × State}
    (hleft : resumeCoroutine m.id (confinedEvaluator m.start.origin fuel) (caller.enter m.alone) = r)
    (hright : resumeCoroutine m.id' (evaluator fuel) (caller.enter s') = r')
    (hstop : r.1.isStopped = false) : r.1 = r'.1 ∧ ∃ w, m.Leaves s' r.2 r'.2 w := by
  have hwaits' : (s'.heap.coroutine m.id').Waits := by
    unfold Coroutine.Waits
    rw [← hm.record.state]
    exact hwaits
  have hbody : (s'.heap.coroutine m.id').body = (m.alone.heap.coroutine m.id).body :=
    congrArg Start.body hm.record.start.symm
  have hends := (ready m.start.origin _ _ fuel).eval (m.alone.heap.coroutine m.id).body hm.record.scope _ _
    (hm.bodies caller calls)
  have hrun := resume_waits (s := caller.enter m.alone) fuel
    (evaluateBy (dispatchConfined m.start.origin) fuel) hpush hwaits rfl
  have hrun' := resume_waits (s := caller.enter s') fuel (evaluateNode fuel) hpush' hwaits' hbody
  subst hleft hright
  unfold confinedEvaluator at hstop ⊢
  unfold evaluator
  rw [hrun, isStopped_ended] at hstop
  rw [hrun, hrun']
  exact hm.ended (fun h => h.1) hends hstop

/-- A coroutine that is resumed answers the same alone and in company. -/
theorem resume (hm : m.Stands s') (caller : Caller) (fuel : Nat) {r r' : Outcome Value × State}
    (hleft : resumeCoroutine m.id (confinedEvaluator m.start.origin fuel) (caller.enter m.alone) = r)
    (hright : resumeCoroutine m.id' (evaluator fuel) (caller.enter s') = r')
    (hstop : r.1.isStopped = false) : r.1 = r'.1 ∧ ∃ w, m.Leaves s' r.2 r'.2 w := by
  have hname : (s'.heap.coroutine m.id').name = (m.alone.heap.coroutine m.id).name :=
    congrArg Start.name hm.record.start.symm
  have hstate : (s'.heap.coroutine m.id').state = (m.alone.heap.coroutine m.id).state := hm.record.state.symm
  have hunchanged : ∀ o, r = (o, caller.enter m.alone) → r' = (o, caller.enter s') →
      r.1 = r'.1 ∧ ∃ w, m.Leaves s' r.2 r'.2 w := by
    rintro o rfl rfl
    exact ⟨rfl, m.world, hm.enter caller⟩
  -- the coroutines have one name, so the call stack refuses both or neither
  cases hpush : caller.calls.push (m.alone.heap.coroutine m.id).name with
  | error e =>
    have hpush' : caller.calls.push (s'.heap.coroutine m.id').name = .error e := hname ▸ hpush
    exact hunchanged _ (hleft.symm.trans (resumeCoroutine_refused _ hpush))
      (hright.symm.trans (resumeCoroutine_refused _ hpush'))
  | ok calls =>
    have hpush' : caller.calls.push (s'.heap.coroutine m.id').name = .ok calls := hname ▸ hpush
    -- nothing is run unless the coroutine waits
    cases hwhere : (m.alone.heap.coroutine m.id).state with
    | created => exact hm.goOn caller fuel hpush hpush' (Or.inl hwhere) hleft hright hstop
    | suspended => exact hm.goOn caller fuel hpush hpush' (Or.inr hwhere) hleft hright hstop
    | running =>
      have hwhere' : (s'.heap.coroutine m.id').state = .running := hstate.trans hwhere
      exact hunchanged _
        (hleft.symm.trans (resumeCoroutine_failed hpush _ (Coroutine.begin?_of_running hwhere)))
        (hright.symm.trans (resumeCoroutine_failed hpush' _ (Coroutine.begin?_of_running hwhere')))
    | finished =>
      have hwhere' : (s'.heap.coroutine m.id').state = .finished := hstate.trans hwhere
      exact hunchanged _
        (hleft.symm.trans (resumeCoroutine_done hpush _ (Coroutine.begin?_of_finished hwhere)))
        (hright.symm.trans (resumeCoroutine_done hpush' _ (Coroutine.begin?_of_finished hwhere')))

/-- A coroutine that is asked answers the same alone and in company. -/
theorem answer (hm : m.Stands s') (q : Question) (fuel : Nat)
    (hstop : (q.answer m.id (confinedEvaluator m.start.origin fuel) m.alone).1.isStopped = false) :
    (q.answer m.id' (evaluator fuel) s').1 = (q.answer m.id (confinedEvaluator m.start.origin fuel) m.alone).1 ∧
      ∃ w, m.Leaves s' (q.answer m.id (confinedEvaluator m.start.origin fuel) m.alone).2
        (q.answer m.id' (evaluator fuel) s').2 w := by
  cases q with
  | resume caller =>
    obtain ⟨hanswer, hleaves⟩ := hm.resume caller fuel rfl rfl hstop
    exact ⟨hanswer.symm, hleaves⟩
  | isFinished =>
    refine ⟨?_, m.world, .refl _ _, hm, .refl _ _ _, Nat.le_refl _, fun _ _ _ => rfl, rfl⟩
    show Outcome.value (Value.bool (s'.heap.coroutine m.id').isFinished) =
      .value (.bool (m.alone.heap.coroutine m.id).isFinished)
    rw [Coroutine.isFinished, Coroutine.isFinished, hm.record.state]

end Member.Stands

end Isolation
end TreeScript
