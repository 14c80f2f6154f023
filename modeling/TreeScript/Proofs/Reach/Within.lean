import TreeScript.Proofs.Evaluations
import TreeScript.Proofs.Pooling.Frames
import TreeScript.Proofs.Reach.Heaps

/-
# Evaluations that stay within reach

An evaluation stays within reach if, in a state whose storage is confined, it leaves the storage confined, ends
with what is within reach, and reads no more of the containers that are being rendered than which of those within
reach are among them (`Exec.Within`).  The last makes the judgement one about two runs: in a state in which
other containers out of reach are being rendered, the evaluation ends the same.

What an evaluation does to the scope of the innermost frame and to the way back, it does as part of a body.  A
body runs within reach if these are within reach (`State.Inside`); what begins a body of its own asks nothing of
the one around it.
-/

namespace TreeScript

open Exec

/-! ## States -/

/-- What a session leads to is within reach, and storage is confined. -/
structure State.Confined (s : State) (r : Reach) : Prop where
  heap : s.heap.Confined r
  root : r.scope s.session.root
  functions : ∀ slot f, s.session.catalog.get? slot = some f → r.HasFunction f
  classes : ∀ name c, s.session.classes.find? name = some c → r.HasClass c
  idle : ∀ function, ∀ c ∈ s.session.pool.idle function, r.scope c

/-- The body that runs is within reach. -/
structure State.Inside (s : State) (r : Reach) : Prop where
  frame : ∀ f ∈ s.session.frames.head?, ∀ c, f.scope? = some c → r.scope c
  resume : ∀ f ∈ s.session.resume, r.HasFrame f

/-- A state in which the same body runs, no further back, while the same is being rendered. -/
structure State.Kept (s t : State) : Prop where
  frames : Frame.Running s.session.frames t.session.frames
  resume : ∀ f ∈ t.session.resume, f ∈ s.session.resume
  held : t.held = s.held

namespace State

variable {s t u : State} {r : Reach}

theorem Kept.refl (s : State) : s.Kept s := ⟨.refl _, fun _ h => h, rfl⟩

theorem Kept.trans (h : s.Kept t) (h' : t.Kept u) : s.Kept u :=
  ⟨h.frames.trans h'.frames, fun f hf => h.resume f (h'.resume f hf), h'.held.trans h.held⟩

theorem Kept.inside (h : s.Kept t) (hs : s.Inside r) : t.Inside r := by
  refine ⟨fun f hf c hc => ?_, fun f hf => hs.resume f (h.resume f hf)⟩
  have hframes := h.frames
  cases hfs : s.session.frames with
  | nil =>
    rw [hfs] at hframes
    rw [hframes.eq_nil] at hf
    cases hf
  | cons g rest =>
    rw [hfs] at hframes
    generalize t.session.frames = frames at hf hframes
    cases hframes with
    | cons _ hgoes =>
      cases hf
      refine hs.frame g (by rw [hfs]; rfl) c ?_
      cases hgoes <;> exact hc

/-- Storage changes, and what the session leads to stays. -/
theorem Confined.withHeap (hs : s.Confined r) {h : Heap} (hh : h.Confined r) : (s.withHeap h).Confined r :=
  { hs with heap := hh }

end State

/-! ## Outcomes -/

namespace Reach

variable (r : Reach)

/-- What a signal carries is within reach. -/
def HasSignal : Signal → Prop
  | .breakLoop v | .returnValue v | .throwValue v => r.Has v
  | .yieldValue v frames => r.Has v ∧ ∀ f ∈ frames, r.HasFrame f
  | .continueLoop | .error _ => True

/-- What an outcome carries is within reach, and a value has a property. -/
def HasOutcome {α : Type} (Q : α → Prop) : Outcome α → Prop
  | .value a => Q a
  | .signal g => r.HasSignal g
  | .halted _ => True

/-- An end with what is within reach. -/
structure Ends {α : Type} (Q : α → Prop) (s : State) (o : Outcome α × State) : Prop where
  outcome : r.HasOutcome Q o.1
  confined : o.2.Confined r
  kept : s.Kept o.2

/-- The same containers within reach are being rendered. -/
def SameHeld (held held' : List Value) : Prop := ∀ v, r.Has v → held.contains v = held'.contains v

variable {r}

theorem SameHeld.cons {held held' : List Value} (h : r.SameHeld held held') (container : Value) :
    r.SameHeld (container :: held) (container :: held') := by
  intro v hv
  rw [List.contains_cons, List.contains_cons, h v hv]

theorem HasOutcome.onErrors {α : Type} {Q : α → Prop} {o : Outcome α} (f : EvalError → EvalError)
    (h : r.HasOutcome Q o) : r.HasOutcome Q (Exec.onErrors f o) := by
  rcases o with _ | (_ | _ | _ | _ | _ | _) | _ <;> exact h

theorem HasOutcome.settled {o : Outcome Value} (h : r.HasOutcome r.Has o) : r.HasOutcome r.Has (Exec.settled o) := by
  rcases o with _ | (_ | _ | _ | _ | _ | _) | _ <;> first | exact h | exact h.1

theorem Ends.after {α : Type} {Q : α → Prop} {s t : State} {o : Outcome α × State} (h : r.Ends Q t o)
    (hst : s.Kept t) : r.Ends Q s o :=
  ⟨h.outcome, h.confined, hst.trans h.kept⟩

end Reach

/-! ## Frames -/

section
variable {r : Reach} {s t : State} {frame : Frame}

theorem Pool.idle_of_leave {p : Pool} {function c : Nat} (h : c ∈ (p.leave frame).idle function) :
    frame.scope? = some c ∨ c ∈ p.idle function := by
  rcases frame with ⟨_ | owner, scope, _ | _, _ | _⟩ | _ <;> try exact .inr h
  change c ∈ (p.release owner scope).idle function at h
  rw [Pool.idle_release] at h
  split at h
  · rename_i howner
    obtain ⟨rfl, -⟩ := howner
    rcases List.mem_cons.mp h with rfl | h
    · exact .inl rfl
    · exact .inr h
  · exact .inr h

/-- A scope that is left to the pool is within reach. -/
theorem State.Confined.leave (hs : s.Confined r) (hframe : ∀ c, frame.scope? = some c → r.scope c)
    (frames : List Frame) :
    (s.withSession { s.session with frames := frames, pool := s.session.pool.leave frame }).Confined r := by
  refine { hs with idle := fun function c hc => ?_ }
  rcases Pool.idle_of_leave hc with hc | hc
  · exact hframe c hc
  · exact hs.idle function c hc

/-- A body within reach begins. -/
theorem State.Inside.push (hs : s.Inside r) (hframe : ∀ c, frame.scope? = some c → r.scope c) :
    (s.withFrames (frame :: s.session.frames)).Inside r := by
  refine ⟨fun f hf => ?_, hs.resume⟩
  cases hf
  exact hframe

/-- A body within reach ends. -/
theorem Reach.Ends.pop {α : Type} {Q : α → Prop} {o : Outcome α × State}
    (hframe : ∀ c, frame.scope? = some c → r.scope c)
    (h : r.Ends Q (s.withFrames (frame :: s.session.frames)) o) : r.Ends Q s (o.1, leaveFrame o.2) := by
  obtain ⟨out, t⟩ := o
  -- the body may have released or retained its scope meanwhile, but it is the same scope
  obtain ⟨f, hgoes, hframes⟩ : ∃ f, frame.Goes f ∧ t.session.frames = f :: s.session.frames := by
    have hrunning := h.kept.frames
    generalize t.session.frames = frames at hrunning
    cases hrunning with
    | @cons _ f _ hgoes => exact ⟨f, hgoes, rfl⟩
  have hleave : leaveFrame t =
      t.withSession { t.session with frames := s.session.frames, pool := t.session.pool.leave f } := by
    rw [leaveFrame, Session.popFrame_eq hframes]
  have hscope : ∀ c, f.scope? = some c → r.scope c := by
    intro c hc
    cases hgoes <;> exact hframe c hc
  dsimp only
  rw [hleave]
  exact ⟨h.outcome, h.confined.leave hscope _, ⟨.refl _, h.kept.resume, h.kept.held⟩⟩

end

/-! ## The judgement -/

namespace Exec

/-- An evaluation, in a body that runs within reach if `inside`, stays within reach, and gives a value of a kind
if it gives one. -/
def Within (r : Reach) (ev : Evaluator) (inside : Prop) {α : Type} (Q : α → Prop) (x : Exec α) : Prop :=
  ∀ s : State, s.Confined r → (inside → s.Inside r) →
    r.Ends Q s (x ev s) ∧ ∀ held, r.SameHeld s.held held →
      x ev (s.withHeld held) = ((x ev s).1, (x ev s).2.withHeld held)

namespace Within

variable {r : Reach} {ev : Evaluator} {inside : Prop} {α β : Type} {P Q : α → Prop} {Q' : β → Prop}
variable {x : Exec α} {f : α → Exec β}

/-! ### Sequencing -/

protected theorem give {a : α} (ha : Q a) : Within r ev inside Q (pure a) :=
  fun s hs _ => ⟨⟨ha, hs, .refl s⟩, fun _ _ => rfl⟩

protected theorem bind (hx : Within r ev inside P x) (hf : ∀ a, P a → Within r ev inside Q' (f a)) :
    Within r ev inside Q' (x >>= f) := by
  intro s hs hin
  obtain ⟨hends, hheld⟩ := hx s hs hin
  simp only [bind_apply]
  generalize x ev s = o at hends hheld
  obtain ⟨a | g | k, t⟩ := o
  · obtain ⟨hends', hheld'⟩ := hf a hends.outcome t hends.confined fun h => hends.kept.inside (hin h)
    refine ⟨hends'.after hends.kept, fun held h => ?_⟩
    -- the other run is in the same state but for `held`, which is again the same within reach
    rw [hheld held h]
    exact hheld' held (hends.kept.held ▸ h)
  · refine ⟨⟨hends.outcome, hends.confined, hends.kept⟩, fun held h => ?_⟩
    rw [hheld held h]
  · refine ⟨⟨trivial, hends.confined, hends.kept⟩, fun held h => ?_⟩
    rw [hheld held h]

/-- After an evaluation of whose value nothing is to be known. -/
protected theorem next (hx : Within r ev inside P x) (hf : ∀ a, Within r ev inside Q' (f a)) :
    Within r ev inside Q' (x >>= f) :=
  hx.bind fun a _ => hf a

protected theorem raise {g : Signal} (hg : r.HasSignal g) : Within r ev inside Q (raise g) :=
  fun s hs _ => ⟨⟨hg, hs, .refl s⟩, fun _ _ => rfl⟩

protected theorem halt (k : Halt) : Within r ev inside Q (halt k) :=
  fun s hs _ => ⟨⟨trivial, hs, .refl s⟩, fun _ _ => rfl⟩

protected theorem fail (cause : ErrorCause) : Within r ev inside Q (fail cause) :=
  Within.raise (g := .error (.of cause)) trivial

protected theorem ofExcept {o : Except EvalError α} (h : ∀ a, o = .ok a → Q a) :
    Within r ev inside Q (ofExcept o) := by
  cases o with
  | ok a => exact .give (h a rfl)
  | error e => exact .raise trivial

protected theorem ofChecked {o : Checked α} (h : ∀ a, o = .ok a → Q a) : Within r ev inside Q (ofChecked o) := by
  rcases o with (e | k) | a
  · exact .raise trivial
  · exact .halt k
  · exact .give (h a rfl)

protected theorem mapM {g : α → Exec β} {items : List α} (h : ∀ a ∈ items, Within r ev inside Q' (g a)) :
    Within r ev inside (fun bs => ∀ b ∈ bs, Q' b) (items.mapM g) := by
  induction items with
  | nil => exact .give nofun
  | cons a items ih =>
    rw [List.mapM_cons]
    refine (h a List.mem_cons_self).bind fun b hb => ?_
    refine (ih fun c hc => h c (List.mem_cons_of_mem a hc)).bind fun bs hbs => .give fun b' hb' => ?_
    rcases List.mem_cons.mp hb' with rfl | hb'
    · exact hb
    · exact hbs b' hb'

/-! ### Reading and writing -/

protected theorem gets {f : State → α} (hf : ∀ s, s.Confined r → Q (f s))
    (hheld : ∀ (s : State) held, f (s.withHeld held) = f s) : Within r ev inside Q (gets f) :=
  fun s hs _ => ⟨⟨hf s hs, hs, .refl s⟩, fun held _ => congrArg (fun a => (Outcome.value a, _)) (hheld s held)⟩

protected theorem heap {f : Heap → α} (hf : ∀ h, h.Confined r → Q (f h)) : Within r ev inside Q (heap f) :=
  .gets (f := fun s => f s.heap) (fun s hs => hf s.heap hs.heap) fun _ _ => rfl

/-- Reading what leads to no storage. -/
protected theorem plain (f : Heap → α) : Within r ev inside (fun _ => True) (heap f) := .heap fun _ _ => trivial

protected theorem session {f : Session → α} (hf : ∀ s : State, s.Confined r → Q (f s.session)) :
    Within r ev inside Q (session f) :=
  .gets (f := fun s => f s.session) hf fun _ _ => rfl

/-- Reading what leads to no storage. -/
protected theorem asked (f : Session → α) : Within r ev inside (fun _ => True) (session f) :=
  .session fun _ _ => trivial

/-- Storage is changed, and may be made. -/
protected theorem make {f : Heap → α × Heap} (hf : ∀ h, h.Confined r → Q (f h).1 ∧ (f h).2.Confined r) :
    Within r ev inside Q (make f) := by
  intro s hs _
  obtain ⟨hvalue, hheap⟩ := hf s.heap hs.heap
  exact ⟨⟨hvalue, hs.withHeap hheap, ⟨.refl _, fun _ h => h, rfl⟩⟩, fun _ _ => rfl⟩

protected theorem modifyHeap {f : Heap → Heap} (hf : ∀ h, h.Confined r → (f h).Confined r) :
    Within r ev inside (fun _ => True) (modifyHeap f) :=
  fun s hs _ => ⟨⟨trivial, hs.withHeap (hf s.heap hs.heap), ⟨.refl _, fun _ h => h, rfl⟩⟩, fun _ _ => rfl⟩

protected theorem makeChecked {f : Heap → Checked (α × Heap)}
    (hf : ∀ h, h.Confined r → ∀ a h', f h = .ok (a, h') → Q a ∧ h'.Confined r) :
    Within r ev inside Q (makeChecked f) := by
  intro s hs _
  have hheld (held : List Value) : (s.withHeld held).heap = s.heap := rfl
  simp only [makeChecked_apply, hheld]
  rcases heq : f s.heap with (e | k) | ⟨a, h⟩
  · exact ⟨⟨trivial, hs, .refl s⟩, fun _ _ => rfl⟩
  · exact ⟨⟨trivial, hs, .refl s⟩, fun _ _ => rfl⟩
  · obtain ⟨hvalue, hheap⟩ := hf s.heap hs.heap a h heq
    exact ⟨⟨hvalue, hs.withHeap hheap, ⟨.refl _, fun _ h => h, rfl⟩⟩, fun _ _ => rfl⟩

/-- The session changes, and leads to what is within reach. -/
protected theorem modifySession {f : Session → Session}
    (hf : ∀ s : State, s.Confined r → (inside → s.Inside r) →
      (s.withSession (f s.session)).Confined r ∧ s.Kept (s.withSession (f s.session))) :
    Within r ev inside (fun _ => True) (modifySession f) :=
  fun s hs hin => ⟨⟨trivial, (hf s hs hin).1, (hf s hs hin).2⟩, fun _ _ => rfl⟩

/-- What is counted, printed and marked leads to no storage. -/
protected theorem noted {f : Session → Session} (hf : ∀ s, f s =
    { s with meter := (f s).meter, output := (f s).output, cancellation := (f s).cancellation }) :
    Within r ev inside (fun _ => True) (modifySession f) := by
  refine .modifySession fun s hs _ => ?_
  rw [hf]
  exact ⟨{ hs with }, ⟨.refl _, fun _ h => h, rfl⟩⟩

protected theorem meter (f : Meter → Meter) : Within r ev inside (fun _ => True) (meter f) :=
  .noted fun _ => rfl

/-! ### Boundaries -/

protected theorem mapOutcome {f : Outcome α → Outcome β} (hx : Within r ev inside Q x)
    (hf : ∀ o, r.HasOutcome Q o → r.HasOutcome Q' (f o)) : Within r ev inside Q' (mapOutcome f x) := by
  intro s hs hin
  obtain ⟨hends, hheld⟩ := hx s hs hin
  refine ⟨⟨hf _ hends.outcome, hends.confined, hends.kept⟩, fun held h => ?_⟩
  show (f (x ev (s.withHeld held)).1, (x ev (s.withHeld held)).2) = _
  rw [hheld held h]
  rfl

protected theorem settle {x : Exec Value} (hx : Within r ev inside r.Has x) : Within r ev inside r.Has (settle x) :=
  hx.mapOutcome fun _ h => h.settled

protected theorem asNative (hx : Within r ev inside Q x) : Within r ev inside Q (asNative x) :=
  hx.mapOutcome fun o h => by
    rw [hostFailed_eq_onErrors]
    exact h.onErrors _

protected theorem handle {take : Signal → Option (Exec α)} (hx : Within r ev inside Q x)
    (htake : ∀ g, r.HasSignal g → ∀ y, take g = some y → Within r ev inside Q y) :
    Within r ev inside Q (handle x take) := by
  intro s hs hin
  obtain ⟨hends, hheld⟩ := hx s hs hin
  unfold handle
  generalize x ev s = o at hends hheld
  obtain ⟨a | g | k, t⟩ := o
  · exact ⟨hends, fun held h => by rw [hheld held h]⟩
  · dsimp only
    cases hg : take g with
    | none => exact ⟨hends, fun held h => by rw [hheld held h]; simp only [hg]⟩
    | some y =>
      have hy := htake g hends.outcome y hg t hends.confined fun h => hends.kept.inside (hin h)
      refine ⟨hy.1.after hends.kept, fun held h => ?_⟩
      rw [hheld held h]
      simp only [hg]
      exact hy.2 held (hends.kept.held ▸ h)
  · exact ⟨hends, fun held h => by rw [hheld held h]⟩

/-- A live call of a name. -/
protected theorem asCall {x : Exec Value} (hx : Within r ev inside r.Has x) (name : String) :
    Within r ev inside r.Has (asCall name x) := by
  intro s hs hin
  have hsession (held : List Value) : (s.withHeld held).session = s.session := rfl
  simp only [asCall_apply, hsession]
  cases hpush : s.session.calls.push name with
  | error e => exact ⟨⟨trivial, hs, .refl s⟩, fun _ _ => rfl⟩
  | ok calls =>
    obtain ⟨hends, hheld⟩ := hx (s.withCalls calls) { hs with } fun h => { hin h with }
    refine ⟨⟨hends.outcome.onErrors _, { hends.confined with }, { hends.kept with }⟩, fun held h => ?_⟩
    show endCall (x ev ((s.withCalls calls).withHeld held)) = _
    rw [hheld held h]
    rfl

/-- The way back is put aside. -/
protected theorem withResume {frames : List ResumeFrame} (hframes : ∀ f ∈ frames, r.HasFrame f)
    (hx : Within r ev inside Q x) : Within r ev inside Q (withResume frames x) := by
  intro s hs hin
  obtain ⟨hends, hheld⟩ := hx (s.withResume frames) { hs with } fun h => ⟨(hin h).frame, hframes⟩
  have hkept : s.Kept ((x ev (s.withResume frames)).2.withResume s.session.resume) :=
    ⟨hends.kept.frames, fun _ h => h, hends.kept.held⟩
  refine ⟨⟨hends.outcome, { hends.confined with }, hkept⟩, fun held h => ?_⟩
  have hbegun := hheld held h
  rw [withResume_apply]
  change ((x ev ((s.withResume frames).withHeld held)).1,
    (x ev ((s.withResume frames).withHeld held)).2.withResume _) = _
  rw [hbegun]
  rfl

/-- A body in a frame of its own. -/
protected theorem withFrame {frame : Frame} (hframe : ∀ c, frame.scope? = some c → r.scope c)
    (hx : Within r ev True Q x) : Within r ev True Q (withFrame frame x) := by
  intro s hs hin
  obtain ⟨hends, hheld⟩ := hx (s.withFrames (frame :: s.session.frames)) { hs with }
    fun h => (hin h).push hframe
  refine ⟨hends.pop hframe, fun held h => ?_⟩
  have hbegun := hheld held h
  rw [withFrame_apply]
  change ((x ev ((s.withFrames (frame :: s.session.frames)).withHeld held)).1,
    leaveFrame (x ev ((s.withFrames (frame :: s.session.frames)).withHeld held)).2) = _
  rw [hbegun]
  rfl

/-- A body that owns no pooled scope, with a way back of its own, asks nothing of the body around it. -/
protected theorem body {frames : List ResumeFrame} (hframes : ∀ f ∈ frames, r.HasFrame f)
    (hx : Within r ev True Q x) : Within r ev inside Q (withResume frames (withFrame .barrier x)) := by
  intro s hs hin
  -- a barrier has no scope, so the body begins within reach whatever runs around it
  obtain ⟨hends, hheld⟩ := hx (enterBody frames s) { hs with } fun _ =>
    ⟨fun f hf c hc => (by cases hf; cases hc), hframes⟩
  have hbarrier : ∀ c, Frame.barrier.scope? = some c → r.scope c := nofun
  have hpopped : r.Ends Q (s.withResume frames) (_, leaveFrame _) := Reach.Ends.pop hbarrier hends
  refine ⟨⟨hpopped.outcome, { hpopped.confined with }, ⟨hpopped.kept.frames, fun _ h => h, hpopped.kept.held⟩⟩,
    fun held h => ?_⟩
  have hbegun := hheld held h
  rw [withResume_apply, withFrame_apply]
  change ((x ev ((enterBody frames s).withHeld held)).1,
    (leaveFrame (x ev ((enterBody frames s).withHeld held)).2).withResume _) = _
  rw [hbegun]
  rfl

/-- A live call of a body that owns no pooled scope. -/
protected theorem asBarrier {x : Exec Value} (hx : Within r ev True r.Has x) (name : String) :
    Within r ev inside r.Has (asBarrier name x) :=
  (Within.body (List.forall_mem_nil _) hx).settle.asCall name

/-- While a container is being rendered, evaluations stay within reach. -/
protected theorem holding (container : Value) (hx : Within r ev inside Q x) :
    Within r ev inside Q (holding container x) := by
  intro s hs hin
  obtain ⟨hends, hheld⟩ := hx (s.withHeld (container :: s.held)) { hs with } fun h => { hin h with }
  refine ⟨⟨hends.outcome, { hends.confined with }, ⟨hends.kept.frames, hends.kept.resume, rfl⟩⟩, fun held h => ?_⟩
  have hbegun := hheld (container :: held) (h.cons container)
  change x ev (s.withHeld (container :: held)) = _ at hbegun
  show ((x ev (s.withHeld (container :: held))).1, (x ev (s.withHeld (container :: held))).2.withHeld held) = _
  rw [hbegun]
  rfl

/-! ### Frames -/

/-- The scope of the body that runs is held by a callable from now on. -/
protected theorem retain : Within r ev inside (fun _ => True) (modifySession Session.retainFrame) := by
  refine .modifySession fun s hs _ => ?_
  cases hframes : s.session.frames with
  | nil =>
    rw [Session.retainFrame_nil hframes]
    exact ⟨hs, .refl s⟩
  | cons f rest =>
    rw [Session.retainFrame_eq hframes]
    refine ⟨{ hs with }, ⟨?_, fun _ h => h, rfl⟩⟩
    rw [hframes]
    exact .cons rest (Frame.goes_retain f)

/-- The scope of the body that runs is left early. -/
protected theorem release : Within r ev True (fun _ => True) (modifySession Session.releaseFrame) := by
  refine .modifySession fun s hs hin => ?_
  cases hframes : s.session.frames with
  | nil =>
    rw [Session.releaseFrame_nil hframes]
    exact ⟨hs, .refl s⟩
  | cons f rest =>
    rw [Session.releaseFrame_eq hframes]
    have hscope := (hin trivial).frame f (by rw [hframes]; rfl)
    refine ⟨hs.leave hscope _, ⟨?_, fun _ h => h, rfl⟩⟩
    rw [hframes]
    exact .cons rest (Frame.goes_release f)

end Within
end Exec
end TreeScript
