import TreeScript.Proofs.Pooling.Frames
import TreeScript.Proofs.Sessions
import TreeScript.Proofs.Simulation.Moments

/-
# Balanced stacks

A session has three stacks: the live calls, the frames of the bodies that run, and the way back to a
`yield`.  However an evaluation ends, it leaves the live calls as they were, and the frames too, except
that the scope of the innermost one may have been left early or captured.  What makes a call leaves the
way back as it was as well.  Nothing ever runs in more live calls than the mode of the session allows.
-/

namespace TreeScript

open Exec

/-! ## What is known of the stacks -/

/-- The stacks while a body runs. -/
structure Stacks where
  calls : CallStack
  frames : List Frame
  mode : EvalMode
  /-- The way back, where nothing that runs may take a frame off it. -/
  resume? : Option (List ResumeFrame)

namespace Stacks

/-- A session has the stacks; if they are limited, it keeps the limit of its mode. -/
structure Of (w : Stacks) (limited : Prop) (live : CallStack) (running : List Frame) (m : EvalMode)
    (way : List ResumeFrame) : Prop where
  calls : live = w.calls
  frames : running = w.frames
  mode : m = w.mode
  resume : ∀ fs, w.resume? = some fs → way = fs
  within : limited → live.Within m.depthLimit

/-- The same body is running. -/
structure Le (w w' : Stacks) : Prop where
  calls : w'.calls = w.calls
  frames : Frame.Running w.frames w'.frames
  mode : w'.mode = w.mode
  resume? : w'.resume? = w.resume?

theorem Le.refl (w : Stacks) : w.Le w := ⟨rfl, .refl _, rfl, rfl⟩

theorem Le.trans {w₁ w₂ w₃ : Stacks} (h : w₁.Le w₂) (h' : w₂.Le w₃) : w₁.Le w₃ where
  calls := h'.calls.trans h.calls
  frames := h.frames.trans h'.frames
  mode := h'.mode.trans h.mode
  resume? := h'.resume?.trans h.resume?

end Stacks

/-- The state has the stacks. -/
def State.HasStacks (limited : Prop) (w : Stacks) (s : State) : Prop :=
  w.Of limited s.session.calls s.session.frames s.session.mode s.session.resume

/-- The stacks as an invariant. -/
def Invariant.stacks (limited : Prop) : Invariant where
  World := Stacks
  le := Stacks.Le
  holds := State.HasStacks limited
  way _ _ := True
  fits w _ := w.resume? = none
  enters _ w₁ := w₁.resume? = none

/-! ## The stacks at boundaries -/

namespace Session

theorem retainFrame_stacks (s : Session) : Frame.Running s.frames s.retainFrame.frames ∧
    s.retainFrame.calls = s.calls ∧ s.retainFrame.mode = s.mode ∧
      s.retainFrame.resume = s.resume := by
  cases h : s.frames with
  | nil =>
    rw [retainFrame_nil h, h]
    exact ⟨.nil, rfl, rfl, rfl⟩
  | cons f rest =>
    rw [retainFrame_eq h]
    exact ⟨.cons rest (Frame.goes_retain f), rfl, rfl, rfl⟩

theorem releaseFrame_stacks (s : Session) : Frame.Running s.frames s.releaseFrame.frames ∧
    s.releaseFrame.calls = s.calls ∧ s.releaseFrame.mode = s.mode ∧
      s.releaseFrame.resume = s.resume := by
  cases h : s.frames with
  | nil =>
    rw [releaseFrame_nil h, h]
    exact ⟨.nil, rfl, rfl, rfl⟩
  | cons f rest =>
    rw [releaseFrame_eq h]
    exact ⟨.cons rest (Frame.goes_release f), rfl, rfl, rfl⟩

end Session

namespace State

variable {limited : Prop} {w w₁ w₂ : Stacks} {s t : State}

/-- The innermost frame has gone on, if it has changed. -/
theorem HasStacks.running (hs : s.HasStacks limited w) {session : Session}
    (hframes : Frame.Running s.session.frames session.frames) (hcalls : session.calls = s.session.calls)
    (hmode : session.mode = s.session.mode) (hresume : session.resume = s.session.resume) :
    ∃ w', w.Le w' ∧ (s.withSession session).HasStacks limited w' := by
  rw [hs.frames] at hframes
  refine ⟨{ w with frames := session.frames }, ⟨rfl, hframes, rfl, rfl⟩, ?_, rfl, ?_, ?_, ?_⟩
  · exact hcalls.trans hs.calls
  · exact hmode.trans hs.mode
  · exact fun fs hfs => hresume.trans (hs.resume fs hfs)
  · intro h
    show session.calls.Within session.mode.depthLimit
    rw [hcalls, hmode]
    exact hs.within h

/-- A frame is put on the stack, with another way back. -/
theorem HasStacks.enter (hs : s.HasStacks limited w) (f : Frame)
    (ht : t.session.calls = s.session.calls ∧ t.session.mode = s.session.mode)
    (hframes : t.session.frames = f :: s.session.frames) :
    t.HasStacks limited ⟨w.calls, f :: w.frames, w.mode, none⟩ where
  calls := ht.1.trans hs.calls
  frames := hframes.trans (congrArg (f :: ·) hs.frames)
  mode := ht.2.trans hs.mode
  resume _ h := by cases h
  within h := by
    rw [ht.1, ht.2]
    exact hs.within h

/-- The frame is taken away again, and the way back put in place. -/
theorem HasStacks.leave {f : Frame} (hle : Stacks.Le ⟨w.calls, f :: w.frames, w.mode, none⟩ w₂)
    (ht : t.HasStacks limited w₂) {resume : List ResumeFrame}
    (hresume : ∀ fs, w.resume? = some fs → resume = fs) :
    ((leaveFrame t).withResume resume).HasStacks limited w := by
  obtain ⟨f', hframes⟩ : ∃ f', t.session.frames = f' :: w.frames := by
    have hrunning := hle.frames
    rw [← ht.frames] at hrunning
    generalize t.session.frames = frames at hrunning
    cases hrunning with
    | @cons _ f' _ _ => exact ⟨f', rfl⟩
  have hpop : leaveFrame t = t.withSession { t.session with
      frames := w.frames, pool := t.session.pool.leave f' } :=
    congrArg t.withSession (Session.popFrame_eq hframes)
  rw [hpop]
  exact ⟨ht.calls.trans hle.calls, rfl, ht.mode.trans hle.mode, hresume, ht.within⟩

end State

namespace Invariant

variable {limited : Prop}

theorem stacks_operations : (Invariant.stacks limited).Operations where
  withStores hs _ := hs
  setValue hs _ _ _ := hs
  withHeld _ hs := hs
  newScope _ hs := hs
  declareSlot _ _ _ hs _ := hs
  unbind _ _ hs := hs
  retain {w s} hs := by
    obtain ⟨hframes, hcalls, hmode, hresume⟩ := s.session.retainFrame_stacks
    exact State.HasStacks.running hs hframes hcalls hmode hresume
  release {w s} hs := by
    obtain ⟨hframes, hcalls, hmode, hresume⟩ := s.session.releaseFrame_stacks
    exact State.HasStacks.running hs hframes hcalls hmode hresume
  addObject _ hs := hs
  callable _ hcalls _ := fun _ _ _ _ => hcalls.elim fun _ h => h.1
  addCallable hs _ := hs
  addCoroutine _ hs _ _ _ := hs
  allows _ hcalls _ := fun _ _ _ _ => hcalls.elim fun _ h => h.1
  addFunction hs _ := hs
  withClasses _ hs := hs
  reserve _ hs := hs
  remember _ _ hs _ := hs
  parsed _ _ ht _ _ := ht
  withMeter _ hs := hs
  withOutput _ hs := hs
  withCancellation _ hs := hs
  nextFrame {w s f rest} hs htakes hresume := by
    obtain ⟨_, hnone, _⟩ := htakes
    refine ⟨w, .refl w, hs.calls, hs.frames, hs.mode, fun fs hfs => ?_, hs.within⟩
    cases hfs.symm.trans hnone
  forget {w s} hs hfits := by
    refine ⟨w, .refl w, hs.calls, hs.frames, hs.mode, fun fs hfs => ?_, hs.within⟩
    cases hfs.symm.trans (hfits (.block []))
  way_yield _ := trivial
  way_cons _ _ _ := trivial

theorem stacks_boundaries : (Invariant.stacks limited).Boundaries where
  call {w s name calls} hs hpush := by
    have hcalls : s.session.calls.push name = .ok calls := hpush
    refine ⟨{ w with calls := calls }, ⟨fun h => h, fun h => h, fun h => h⟩, ⟨?_, id⟩, ?_⟩
    · exact ⟨rfl, hs.frames, hs.mode, hs.resume, fun h => (hs.within h).push hcalls⟩
    · intro w₂ t hle ht
      have hpop : t.session.calls.pop = s.session.calls := by
        rw [ht.calls, hle.calls]
        exact CallStack.pop_of_push hcalls
      refine ⟨{ w₂ with calls := w.calls }, ⟨rfl, hle.frames, hle.mode, hle.resume?⟩, ?_, id,
        fun _ h => h⟩
      refine ⟨hpop.trans hs.calls, ht.frames, ht.mode, ht.resume, fun h => ?_⟩
      show t.session.calls.pop.Within t.session.mode.depthLimit
      rw [hpop, ht.mode, hle.mode, ← hs.mode]
      exact hs.within h
  barrier {w s} hs :=
    ⟨⟨w.calls, .barrier :: w.frames, w.mode, none⟩, rfl, ⟨hs.enter .barrier ⟨rfl, rfl⟩ rfl, id⟩,
      fun _ _ hle ht => ⟨w, .refl w, .leave hle ht hs.resume, id⟩⟩
  callScope {w s function c t} hs hcalls hacquire := by
    obtain ⟨_, hnone, _⟩ := hcalls
    obtain ⟨pool, m, heap, rfl, _⟩ :=
      acquireScope_state (hacquire (.untraced 0 fun _ _ s => (.halted .outOfFuel, s)))
    refine ⟨⟨w.calls, .pooled function c false false :: w.frames, w.mode, none⟩, rfl,
      ⟨hs.enter _ ⟨rfl, rfl⟩ rfl, id⟩, fun w₂ t hle ht => ⟨w, .refl w, ?_, id⟩⟩
    exact .leave hle ht fun fs hfs => by cases hfs.symm.trans hnone
  aside {w s} hs _ := by
    refine ⟨{ w with resume? := none }, fun _ _ => rfl, ⟨?_, id⟩, fun w₂ t hle ht => ?_⟩
    · exact ⟨hs.calls, hs.frames, hs.mode, nofun, hs.within⟩
    · refine ⟨{ w₂ with resume? := w.resume? }, ⟨hle.calls, hle.frames, hle.mode, rfl⟩, ?_, id,
        fun _ h => h⟩
      exact ⟨ht.calls, ht.frames, ht.mode, hs.resume, ht.within⟩
  resumed {w s i frames running} hs _ :=
    ⟨⟨w.calls, .barrier :: w.frames, w.mode, none⟩, rfl, ⟨hs.enter .barrier ⟨rfl, rfl⟩ rfl, id⟩,
      fun _ _ hle ht => ⟨w, .refl w, .leave hle ht hs.resume, id⟩,
      fun _ _ _ hle ht _ => ⟨w, .refl w, .leave hle ht hs.resume, id⟩⟩

theorem stacks_untyped : (Invariant.stacks limited).Untyped where
  suits _ _ _ := trivial
  typed _ _ _ := trivial
  writable _ _ := trivial

/-- **Evaluations keep the stacks.** -/
theorem stacks_upheld (limited : Prop) : (Invariant.stacks limited).Upheld where
  le_refl := Stacks.Le.refl
  le_trans := Stacks.Le.trans
  way_mono _ _ := trivial
  fits_mono hle he := hle.resume?.trans he
  marked_mono _ h := h
  fits_part he _ := he
  enters_fits _ h := h
  toTypes := stacks_untyped.types Stacks.Le.refl
  toOperations := stacks_operations
  toBoundaries := stacks_boundaries

end Invariant

/-! ## Balance -/

/-- The stacks are left as they were: the same live calls, and the same frames, of which at most the
innermost has newly been left early or captured.  The mode stays as well. -/
structure State.Balanced (s t : State) : Prop where
  calls : t.session.calls = s.session.calls
  frames : Frame.Running s.session.frames t.session.frames
  mode : t.session.mode = s.session.mode

/-- There are no more live calls than the mode of the session allows. -/
def State.InDepth (s : State) : Prop := s.session.calls.Within s.session.mode.depthLimit

/-- What makes a call. -/
inductive Exec.Calling : Exec Value → Prop
  | invoke (function : Option Nat) (f : Function) (args : List Value) (caller : Nat) :
      Calling (invoke function f args caller)
  | callCallable (caller : Nat) (args : List Value) (callee : Nat) :
      Calling (callCallable caller args callee)
  | callMethod (i : Nat) (m : Routine) (args : List Value) : Calling (callMethod i m args)
  | instantiate (cls : ClassDef) (ctor : Option (ConstructorDecl Node)) (args : List Value) :
      Calling (instantiate cls ctor args)
  | resumeCoroutine (i : Nat) : Calling (resumeCoroutine i)

section
variable {limited : Prop} {w : Stacks} {s : State} {x y : Exec Value} {ev ev' : Evaluator}

/-- The stacks of a state, with a way back that nothing may use, or none. -/
def State.stacksWith (s : State) (resume? : Option (List ResumeFrame)) : Stacks :=
  ⟨s.session.calls, s.session.frames, s.session.mode, resume?⟩

theorem State.hasStacks (s : State) (limited : Prop) (hs : limited → s.InDepth) :
    s.HasStacks limited (s.stacksWith none) :=
  ⟨rfl, rfl, rfl, nofun, hs⟩

theorem State.hasStacks_resume (s : State) (limited : Prop) (hs : limited → s.InDepth) :
    s.HasStacks limited (s.stacksWith (some s.session.resume)) :=
  ⟨rfl, rfl, rfl, fun _ h => Option.some.inj h, hs⟩

/-- What the two sides agree on is the same, and balanced. -/
theorem Simulation.Run.balanced (hs : s.HasStacks limited w)
    (h : (Invariant.stacks limited).toSimulation.Agrees ev ev' w x y) :
    x ev s = y ev' s ∧ s.Balanced (x ev s).2 ∧
      ∀ fs, w.resume? = some fs → (x ev s).2.session.resume = fs := by
  have hends := Invariant.eq_of_ends (fun _ h => h) (h s s (Invariant.rel_self hs))
  obtain ⟨hlax, _⟩ | ⟨heq, w', hle, ht, _⟩ := hends
  · exact hlax.elim
  have hle : w.Le w' := hle
  have ht : (x ev s).2.HasStacks limited w' := ht
  refine ⟨heq, ⟨?_, ?_, ?_⟩, fun fs hfs => ht.resume fs (hle.resume?.trans hfs)⟩
  · exact ht.calls.trans (hle.calls.trans hs.calls.symm)
  · rw [ht.frames, hs.frames]
    exact hle.frames
  · exact ht.mode.trans (hle.mode.trans hs.mode.symm)

/-- Evaluators that are compared agree on calls, wherever they may be made. -/
theorem Exec.Calling.agrees (hx : Calling x) (hw : w.resume? = none)
    (R : (Invariant.stacks limited).toSimulation.Ready ev ev') :
    (Invariant.stacks limited).toSimulation.Agrees ev ev' w x x := by
  have L := (Invariant.stacks_upheld limited).lawful
  have hcalls : (Invariant.stacks limited).toSimulation.Permits w Node.isCall :=
    ⟨.call 0 "" [], hw, rfl⟩
  cases hx with
  | invoke function f args caller =>
    exact Simulation.agrees_invoke L R hcalls function args rfl fun _ _ _ _ => hw
  | callCallable caller args callee => exact Simulation.agrees_callCallable L R hcalls rfl args callee
  | callMethod i m args => exact Simulation.agrees_callMethod L R ⟨"", trivial⟩ m args
  | instantiate cls ctor args => exact Simulation.agrees_instantiate L R cls ctor args
  | resumeCoroutine i => exact Simulation.agrees_resumeCoroutine L R i

/-- **Nodes leave the stacks as they were.** -/
theorem evaluateNode_balanced (fuel : Nat) (e : Node) (c : Nat) (s : State) :
    s.Balanced (evaluateNode fuel e c s).2 := by
  have R := (Invariant.stacks_upheld False).ready fuel
  have hagrees := R.eval (w := s.stacksWith none) (e := e) (c := c) rfl rfl
  exact (hagrees.balanced (s.hasStacks False False.elim)).2.1

/-- **Calls leave the stacks as they were.** -/
theorem Exec.Calling.balanced (hx : Calling x) (fuel : Nat) (s : State) :
    s.Balanced (x.run fuel s).2 := by
  have R := (Invariant.stacks_upheld False).ready fuel
  exact ((hx.agrees (w := s.stacksWith none) rfl R).balanced (s.hasStacks False False.elim)).2.1

/-- What runs with a way back of its own as a live call leaves the way back as it was. -/
theorem Exec.resume_asCall (name : String) (frames : List ResumeFrame) (x : Exec Value)
    (ev : Evaluator) (s : State) :
    (asCall name (withResume frames x) ev s).2.session.resume = s.session.resume := by
  rw [asCall_apply]
  cases s.session.calls.push name <;> rfl

/-- A body that owns no pooled scope leaves the way back as it was. -/
theorem Exec.resume_asBarrier (name : String) (x : Exec Value) (ev : Evaluator) (s : State) :
    (asBarrier name x ev s).2.session.resume = s.session.resume := by
  unfold asBarrier
  rw [asCall_apply]
  cases s.session.calls.push name <;> rfl

/-- Calls leave the way back as it was. -/
theorem Exec.Calling.resume (hx : Calling x) (fuel : Nat) (s : State) :
    (x.run fuel s).2.session.resume = s.session.resume := by
  have L := (Invariant.stacks_upheld False).lawful
  have R := (Invariant.stacks_upheld False).ready fuel
  -- where the way back may not be used, it stays
  have hstays : ∀ {y : Exec Value}, (Invariant.stacks False).toSimulation.Agrees (evaluator fuel)
      (evaluator fuel) (s.stacksWith (some s.session.resume)) y y →
      (y.run fuel s).2.session.resume = s.session.resume := by
    intro y h
    obtain ⟨_, _, hresume⟩ := Simulation.Run.balanced (s.hasStacks_resume False False.elim) h
    exact hresume _ rfl
  cases hx with
  | invoke function f args caller => exact resume_asCall f.name [] _ _ (s.withMeter _)
  | callCallable caller args callee =>
    rw [callCallable_eq]
    show (applyCallable _ caller args (s.heap.callable callee) _ s).2.session.resume = _
    unfold applyCallable
    cases s.heap.callable callee with
    | function f =>
      dsimp only
      split
      · exact resume_asCall f.name [] _ _ (s.withMeter _)
      · rfl
    | lambda params body scope => exact resume_asBarrier _ _ _ ((s.withMeter _).withHeap _)
    | deferred expr scope => exact resume_asBarrier _ _ _ s
  | callMethod i m args => exact hstays (Simulation.agrees_callMethod L R ⟨"", trivial⟩ m args)
  | instantiate cls ctor args => exact hstays (Simulation.agrees_instantiate L R cls ctor args)
  | resumeCoroutine i => exact hstays (Simulation.agrees_resumeCoroutine L R i)

end

/-! ## Depth -/

/-- The evaluator beside the one that is watched for too many live calls. -/
theorem ready_inDepth {alarm : State → Bool} (halarm : ∀ t : State, t.InDepth → alarm t = false)
    (react : Exec Unit) (fuel : Nat) :
    (Invariant.stacks True).toSimulation.Ready (evaluator fuel) (observed alarm react fuel) :=
  Invariant.ready_observed (Invariant.stacks_upheld True) (fun _ h => h)
    (fun _ _ hs => halarm _ (hs.within trivial)) react fuel

/-- A live call begins with no more live calls than there may be. -/
theorem Exec.asCall_congr {x y : Exec Value} {ev : Evaluator}
    (h : ∀ t : State, t.InDepth → x ev t = y ev t) (name : String) {s : State} (hs : s.InDepth) :
    asCall name x ev s = asCall name y ev s := by
  rw [asCall_apply, asCall_apply]
  cases hcalls : s.session.calls.push name with
  | error e => rfl
  | ok calls =>
    dsimp only
    rw [h (s.withCalls calls) (hs.push hcalls)]

/-! ## Histories -/

/-- No call is live in a session, and no body is running. -/
structure Session.Idle (s : Session) : Prop where
  calls : s.calls = .empty s.mode.depthLimit
  frames : s.frames = []

namespace Session.Idle

theorem new (id root : Nat) (settings : Settings) : (Session.new id root settings).Idle where
  calls := Session.new_eq (p := fun s => s.calls = .empty s.mode.depthLimit) (fun _ _ _ => rfl) id
    root settings ▸ rfl
  frames := Session.new_eq (p := Session.frames) (fun _ _ _ => rfl) id root settings

theorem inDepth {s : Session} (h : s.Idle) (heap : Heap) (sites : CallSites) (held : List Value) :
    State.InDepth ⟨heap, sites, held, s⟩ := by
  show s.calls.Within s.mode.depthLimit
  rw [h.calls]
  exact CallStack.within_empty _

theorem of_balanced {s : Session} (h : s.Idle) {heap : Heap} {sites : CallSites} {held : List Value}
    {t : State} (ht : State.Balanced ⟨heap, sites, held, s⟩ t) : t.session.Idle where
  calls := by
    rw [ht.calls, ht.mode]
    exact h.calls
  frames := by
    have hframes := ht.frames
    rw [show (State.mk heap sites held s).session.frames = [] from h.frames] at hframes
    exact hframes.eq_nil

end Session.Idle

/-- A top-level evaluation leaves the stacks as they were. -/
theorem Simulation.Fair.balanced {x : Exec Value} (hx : Simulation.Fair x) (fuel : Nat) (s : State) :
    s.Balanced (x.run fuel s).2 := by
  have K := Invariant.stacks_upheld False
  have hagrees := hx _ K.lawful (K.ready fuel) (w := s.stacksWith none) trivial fun _ => rfl
  exact (Simulation.Run.balanced (s.hasStacks False False.elim) hagrees).2.1

namespace Host

/-- At the top level no call is live before an evaluation, and so none after it. -/
theorem keeps_idle (fuel : Nat → Nat) :
    Keeps (fun _ s => s.Idle) fun k => evaluator (fuel k) where
  new k root settings := .new (k + 1) root settings
  run hx _ _ _ hs := hs.of_balanced (hx.balanced _ _)
  outside _ _ _ _ hs := ⟨hs.calls, hs.frames⟩

/-- In no history an alarm goes off that is silent as long as there are no more live calls than there
may be. -/
theorem serve_inDepth {alarm : State → Bool} (halarm : ∀ t : State, t.InDepth → alarm t = false)
    (react : Exec Unit) (fuel : Nat → Nat) (rs : List Request) :
    Host.empty.serve (fun k => observed alarm react (fuel k)) rs =
      Host.empty.serve (fun k => evaluator (fuel k)) rs := by
  refine All.serve_congr (keeps_idle fuel) (all_empty _) (fun {k x} hx h sites s hs => ?_) rs
  have hagrees := hx _ (Invariant.stacks_upheld True).lawful (ready_inDepth halarm react (fuel k))
    (w := State.stacksWith ⟨h, sites, [], s⟩ none) trivial fun _ => rfl
  have hstacks := State.hasStacks _ True fun _ => hs.inDepth h sites []
  exact (Simulation.Run.balanced hstacks hagrees).1.symm

end Host

/-! ## The stacks are balanced -/

/-- **The stacks are balanced.**  However an evaluation of a node ends, it leaves the live calls and the
frames as they were; what makes a call leaves the way back as it was as well.  From a state in which there are
no more live calls than there may be, there never are, neither at a node nor where a call begins.  So
after every top-level evaluation of a history no call is live and no frame is left. -/
theorem stacks_balanced :
    (∀ (fuel : Nat) (e : Node) (c : Nat) (s : State), s.Balanced (evaluateNode fuel e c s).2) ∧
    (∀ (fuel : Nat) (x : Exec Value), Calling x → ∀ s : State,
      s.Balanced (x.run fuel s).2 ∧ (x.run fuel s).2.session.resume = s.session.resume) ∧
    (∀ (fuel : Nat) (s : State), s.InDepth →
      (∀ e c, Always State.InDepth (eval e c) fuel s) ∧
      (∀ x, Calling x → Always State.InDepth x fuel s) ∧
      ∀ name ev (x y : Exec Value), (∀ t : State, t.InDepth → x ev t = y ev t) →
        asCall name x ev s = asCall name y ev s) ∧
    ∀ (fuel : Nat → Nat) (rs : List Request),
      (∀ alarm react, (∀ t : State, t.InDepth → alarm t = false) →
        Host.empty.serve (fun k => observed alarm react (fuel k)) rs =
          Host.empty.serve (fun k => evaluator (fuel k)) rs) ∧
      ∀ session ∈ (Host.empty.serve (fun k => evaluator (fuel k)) rs).2.sessions,
        session.calls.depth = 0 ∧ session.frames = [] := by
  refine ⟨evaluateNode_balanced, fun fuel x hx s => ⟨hx.balanced fuel s, hx.resume fuel s⟩, ?_, ?_⟩
  · intro fuel s hs
    have hstacks := s.hasStacks True fun _ => hs
    refine ⟨fun e c alarm react halarm => ?_, fun x hx alarm react halarm => ?_, ?_⟩
    · have hagrees := (ready_inDepth halarm react fuel).eval (w := s.stacksWith none) (e := e)
        (c := c) rfl rfl
      exact (hagrees.balanced hstacks).1.symm
    · have hagrees := hx.agrees (w := s.stacksWith none) rfl (ready_inDepth halarm react fuel)
      exact (hagrees.balanced hstacks).1.symm
    · exact fun name ev x y h => asCall_congr h name hs
  · refine fun fuel rs => ⟨fun alarm react halarm => Host.serve_inDepth halarm react fuel rs, ?_⟩
    intro session hsession
    obtain ⟨k, hk⟩ := Array.mem_iff_getElem?.mp hsession
    have hidle := (Host.all_empty _).serve (Host.keeps_idle fuel) rs k session hk
    exact ⟨by rw [hidle.calls]; rfl, hidle.frames⟩

/-- A session with as many live calls as there may be. -/
def Session.full : Session :=
  { Session.blank 1 0 Host.bare with calls := ⟨List.replicate 512 "f", some 512⟩ }

/-- One call more fails, and leaves the stacks as they were. -/
theorem stacks_balanced_full :
    let s : State := ⟨.empty, .empty, [], .full⟩
    Calling (resumeCoroutine 0) ∧ s.InDepth ∧
      s.session.calls.push "f" = .error (.of (.stackOverflow 512)) ∧
      s.Balanced ((resumeCoroutine 0).run 3 s).2 ∧ Always State.InDepth (resumeCoroutine 0) 3 s := by
  intro s
  obtain ⟨_, hcalling, hdepth, _⟩ := stacks_balanced
  have hdepth₀ : s.session.calls.depth = 512 := List.length_replicate
  have hfull : s.InDepth := by
    refine ⟨rfl, fun n hn => ?_⟩
    cases hn
    exact Nat.le_of_eq hdepth₀
  refine ⟨.resumeCoroutine 0, hfull, CallStack.push_full rfl hdepth₀, ?_, ?_⟩
  · exact (hcalling 3 _ (.resumeCoroutine 0) s).1
  · exact (hdepth 3 s hfull).2.1 _ (.resumeCoroutine 0)

end TreeScript
