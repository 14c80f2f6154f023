import TreeScript.Eval.Node

/-
# Laws of evaluations

Evaluations form a lawful monad.  What a boundary does to an outcome is of two kinds: it changes the
failures and nothing else (`onErrors`), or it lets no jump through (`settled`).  An evaluation without
jumps passes a boundary of the second kind unchanged; calls of functions of the program, and the
making of objects, are such evaluations.

`evaluateBy` ties an evaluator to itself for any account of what a node does; `evaluateNode` is the
one for `Exec.dispatch`.
-/

namespace TreeScript

/-! ## Parts of the state -/

namespace State

def withHeap (s : State) (h : Heap) : State := { s with heap := h }

def withSites (s : State) (sites : CallSites) : State := { s with sites := sites }

def withHeld (s : State) (held : List Value) : State := { s with held := held }

def withSession (s : State) (session : Session) : State := { s with session := session }

def withCalls (s : State) (calls : CallStack) : State :=
  s.withSession { s.session with calls := calls }

def withFrames (s : State) (frames : List Frame) : State :=
  s.withSession { s.session with frames := frames }

def withResume (s : State) (frames : List ResumeFrame) : State :=
  s.withSession { s.session with resume := frames }

def withMeter (s : State) (m : Meter) : State := s.withSession { s.session with meter := m }

def withOutput (s : State) (o : Output) : State := s.withSession { s.session with output := o }

def withCancellation (s : State) (c : Cancellation) : State :=
  s.withSession { s.session with cancellation := c }

end State

namespace Exec

/-! ## Sequencing -/

instance : LawfulMonad Exec := .mk' Exec
  (by
    intro α x
    funext ev s
    show (x >>= fun a => pure a) ev s = x ev s
    rw [bind_apply]
    rcases x ev s with ⟨_ | _ | _, t⟩ <;> rfl)
  (fun _ _ => rfl)
  (by
    intro α β γ x f g
    funext ev s
    simp only [bind_apply]
    rcases x ev s with ⟨_ | _ | _, t⟩ <;> rfl)

/-! ## Failures -/

/-- Change the failures of an outcome. -/
def onErrors {α : Type} (f : EvalError → EvalError) : Outcome α → Outcome α
  | .signal (.error e) => .signal (.error (f e))
  | o => o

theorem traced_eq_onErrors {α : Type} (calls : CallStack) :
    traced (α := α) calls = onErrors calls.attach := by
  funext o
  rcases o with _ | (_ | _ | _ | _ | _ | _) | _ <;> rfl

theorem hostFailed_eq_onErrors {α : Type} :
    hostFailed (α := α) = onErrors EvalError.asHostFailure := by
  funext o
  rcases o with _ | (_ | _ | _ | _ | _ | _) | _ <;> rfl

/-- End the most recent call; a failure is given the live calls as its backtrace. -/
def endCall {α : Type} (r : Outcome α × State) : Outcome α × State :=
  (onErrors r.2.session.calls.attach r.1, r.2.withCalls r.2.session.calls.pop)

/-- Evaluating as a call, in terms of the state. -/
theorem asCall_apply (name : String) (x : Exec Value) (ev : Evaluator) (s : State) :
    asCall name x ev s =
      match s.session.calls.push name with
      | .error e => (.signal (.error (s.session.calls.attach e)), s)
      | .ok calls => endCall (x ev (s.withCalls calls)) := by
  obtain ⟨h, sites, held, session⟩ := s
  unfold asCall
  dsimp only
  cases session.calls.push name with
  | error e => rfl
  | ok calls =>
    simp only [traced_eq_onErrors]
    rfl

/-- A call that ends with the live calls with which it has begun ends with those of its caller. -/
theorem endCall_eq {α : Type} {outer calls : CallStack} {name : String}
    (hpush : outer.push name = .ok calls) {r : Outcome α × State} (hr : r.2.session.calls = calls) :
    endCall r = (onErrors calls.attach r.1, r.2.withCalls outer) := by
  unfold endCall
  rw [hr, CallStack.pop_of_push hpush]

/-- A call that ends at once leaves everything as it was. -/
theorem endCall_withCalls {α : Type} {name : String} {s : State} {calls : CallStack} (o : Outcome α)
    (hpush : s.session.calls.push name = .ok calls) :
    endCall (o, s.withCalls calls) = (onErrors calls.attach o, s) := by
  rw [endCall_eq hpush rfl]
  rfl

/-- What is done at every node, in terms of the state. -/
theorem enterNode_apply (ev : Evaluator) (s : State) :
    enterNode ev s =
      if s.session.cancellation.marked then (.signal (.error (.of .cancelled)), s)
      else
        match s.session.meter.step with
        | (.ok (), m) => (.value (), s.withMeter m.countNode)
        | (.error e, m) => (.signal (.error e), s.withMeter m) := by
  obtain ⟨h, sites, held, session⟩ := s
  unfold enterNode
  dsimp only
  split
  · rfl
  · rcases session.meter.step with ⟨_ | _, m⟩ <;> rfl

/-- Making something that can fail, in terms of the state. -/
theorem makeChecked_apply {α : Type} (f : Heap → Checked (α × Heap)) (ev : Evaluator) (s : State) :
    makeChecked f ev s =
      match f s.heap with
      | .ok (a, h) => (.value a, s.withHeap h)
      | .error (.error e) => (.signal (.error e), s)
      | .error (.halt k) => (.halted k, s) := by
  simp only [makeChecked, bind_apply, heap]
  rcases f s.heap with (_ | _) | _ <;> rfl

/-! ## Brackets -/

theorem withResume_apply {α : Type} (frames : List ResumeFrame) (x : Exec α) (ev : Evaluator)
    (s : State) :
    withResume frames x ev s =
      ((x ev (s.withResume frames)).1,
        (x ev (s.withResume frames)).2.withResume s.session.resume) := rfl

/-- Take the innermost frame of the session away. -/
def leaveFrame (s : State) : State := s.withSession s.session.popFrame

theorem withFrame_apply {α : Type} (frame : Frame) (x : Exec α) (ev : Evaluator) (s : State) :
    withFrame frame x ev s =
      ((x ev (s.withFrames (frame :: s.session.frames))).1,
        leaveFrame (x ev (s.withFrames (frame :: s.session.frames))).2) := rfl

theorem acquireScope_none (ev : Evaluator) (s : State) :
    acquireScope none ev s =
      (.value s.heap.scopes.size, s.withHeap (s.heap.newScope s.session.root).2) := rfl

theorem acquireScope_some (function : Nat) (ev : Evaluator) (s : State) :
    acquireScope (some function) ev s =
      match s.session.pool.acquire? function with
      | some (scope, pool) =>
        (.value scope,
          (s.withSession { s.session with
            pool := pool, meter := s.session.meter.countPool true }).withHeap
              (s.heap.clear scope))
      | none =>
        (.value s.heap.scopes.size,
          (s.withMeter (s.session.meter.countPool false)).withHeap
            (s.heap.newScope s.session.root).2) := by
  unfold acquireScope
  simp only [bind_apply, session]
  cases s.session.pool.acquire? function <;> rfl

/-- What acquiring a scope does to a state. -/
theorem acquireScope_state {function : Option Nat} {ev : Evaluator} {s t : State} {c : Nat}
    (h : acquireScope function ev s = (.value c, t)) :
    ∃ pool m heap, t = (s.withSession { s.session with pool := pool, meter := m }).withHeap heap ∧
      (heap = (s.heap.newScope s.session.root).2 ∨ heap = s.heap.clear c) := by
  cases function with
  | none =>
    cases (acquireScope_none ev s).symm.trans h
    exact ⟨_, _, _, rfl, Or.inl rfl⟩
  | some slot =>
    rw [acquireScope_some] at h
    cases hacquire : s.session.pool.acquire? slot with
    | none =>
      rw [hacquire] at h
      cases h
      exact ⟨_, _, _, rfl, Or.inl rfl⟩
    | some p =>
      rw [hacquire] at h
      cases h
      exact ⟨_, _, _, rfl, Or.inr rfl⟩

/-- Finish a coroutine. -/
def finishCoroutine (i : Nat) (s : State) : State :=
  s.withHeap (s.heap.setCoroutine i (s.heap.coroutine i).finish)

/-- Suspend a coroutine with a way back. -/
def suspendCoroutine (i : Nat) (frames : List ResumeFrame) (s : State) : State :=
  s.withHeap (s.heap.setCoroutine i ((s.heap.coroutine i).suspend frames))

/-- The state in which a body without a pooled scope begins, with a way back. -/
def enterBody (frames : List ResumeFrame) (s : State) : State :=
  (s.withResume frames).withFrames (.barrier :: s.session.frames)

/-- What becomes of a coroutine when its body ends or is left by a `yield`. -/
def leaveCoroutine (i : Nat) (outer : List ResumeFrame) :
    Outcome Value × State → Outcome Value × State
  | (.signal (.yieldValue v frames), t) =>
    (.value v, suspendCoroutine i frames ((leaveFrame t).withResume outer))
  | (o, t) => (settled o, finishCoroutine i ((leaveFrame t).withResume outer))

theorem calls_leaveCoroutine (i : Nat) (outer : List ResumeFrame) (r : Outcome Value × State) :
    (leaveCoroutine i outer r).2.session.calls = r.2.session.calls := by
  have hleave : (leaveFrame r.2).session.calls = r.2.session.calls := by
    obtain ⟨_, _, _, ⟨_, _, _, _, _, _, _, _, _, _, frames, _, _⟩⟩ := r.2
    rcases frames with _ | ⟨⟨_ | slot, c, _ | _, _ | _⟩ | _, rest⟩ <;> rfl
  rw [← hleave]
  rcases r with ⟨_ | (_ | _ | _ | _ | _ | _) | _, t⟩ <;> rfl

/-- Running the body of a coroutine, in terms of the state. -/
theorem untilYield_apply (i : Nat) (frames : List ResumeFrame) (x : Exec Value) (ev : Evaluator)
    (s : State) :
    untilYield i (withResume frames (withFrame .barrier x)) ev s =
      leaveCoroutine i s.session.resume (x ev (enterBody frames s)) := by
  unfold untilYield
  rw [withResume_apply, withFrame_apply,
    show (s.withResume frames).withFrames (.barrier :: (s.withResume frames).session.frames) =
      enterBody frames s from rfl]
  generalize x ev (enterBody frames s) = r
  rcases r with ⟨_ | (_ | _ | _ | _ | _ | _) | _, t⟩ <;> rfl

end Exec

/-! ## Jumps -/

/-- Whether a signal is a jump of the program: one that ends a loop, a round or a call. -/
def Signal.isJump : Signal → Bool
  | breakLoop _ | continueLoop | returnValue _ | yieldValue .. => true
  | throwValue _ | error _ => false

namespace Exec

/-- No jump leaves an evaluation. -/
def Jumpless {α : Type} (x : Exec α) : Prop :=
  ∀ ev s g, (x ev s).1 = .signal g → g.isJump = false

/-- Nothing is settled of an evaluation without jumps. -/
theorem Jumpless.settle_eq {x : Exec Value} (h : Jumpless x) : settle x = x := by
  funext ev s
  have hx := h ev s
  show ((settled (x ev s).1, (x ev s).2) : Outcome Value × State) = x ev s
  rcases hr : x ev s with ⟨_ | g | _, t⟩
  · rfl
  · rw [hr] at hx
    have hg := hx g rfl
    cases g <;> first | rfl | cases hg
  · rfl

theorem jumpless_settle (x : Exec Value) : Jumpless (settle x) := by
  intro ev s g h
  change settled (x ev s).1 = .signal g at h
  generalize (x ev s).1 = o at h
  rcases o with _ | (_ | _ | _ | _ | _ | _) | _ <;> cases h <;> rfl

theorem jumpless_pure {α : Type} (a : α) : Jumpless (pure a : Exec α) := by
  intro ev s g h
  cases h

theorem jumpless_gets {α : Type} (f : State → α) : Jumpless (gets f) := by
  intro ev s g h
  cases h

theorem jumpless_make {α : Type} (f : Heap → α × Heap) : Jumpless (make f) := by
  intro ev s g h
  cases h

theorem Jumpless.bind {α β : Type} {x : Exec α} {f : α → Exec β} (hx : Jumpless x)
    (hf : ∀ a, Jumpless (f a)) : Jumpless (x >>= f) := by
  intro ev s g h
  have hxs := hx ev s
  rw [bind_apply] at h
  rcases hr : x ev s with ⟨a | k | k, t⟩ <;> rw [hr] at h hxs
  · exact hf a ev t g h
  · cases h
    exact hxs g rfl
  · cases h

theorem Jumpless.asCall {x : Exec Value} (hx : Jumpless x) (name : String) :
    Jumpless (asCall name x) := by
  intro ev s g h
  rw [asCall_apply] at h
  cases hp : s.session.calls.push name with
  | error e =>
    rw [hp] at h
    cases h
    rfl
  | ok calls =>
    rw [hp] at h
    have hxs := hx ev (s.withCalls calls)
    dsimp only at h
    generalize x ev (s.withCalls calls) = r at h hxs
    rcases r with ⟨_ | k | _, t⟩
    · cases h
    · have hk := hxs k rfl
      cases k <;> cases h <;> first | rfl | cases hk
    · cases h

theorem Jumpless.withResume {α : Type} {x : Exec α} (hx : Jumpless x) (frames : List ResumeFrame) :
    Jumpless (withResume frames x) :=
  fun ev s g h => hx ev (s.withResume frames) g h

/-- A body that owns no pooled scope lets no jump through. -/
theorem jumpless_asBarrier (name : String) (x : Exec Value) : Jumpless (asBarrier name x) :=
  (jumpless_settle _).asCall name

/-- Making an object raises no jump. -/
theorem jumpless_instantiate (cls : ClassDef) (ctor : Option (ConstructorDecl Node))
    (args : List Value) : Jumpless (instantiate cls ctor args) :=
  (jumpless_gets _).bind fun _ => (jumpless_make _).bind fun _ => (jumpless_make _).bind fun _ =>
    (jumpless_asBarrier _ _).bind fun _ => jumpless_pure _

theorem jumpless_acquireScope (function : Option Nat) : Jumpless (acquireScope function) := by
  refine (jumpless_gets _).bind fun root => ?_
  cases function with
  | none => exact jumpless_make _
  | some slot =>
    refine (jumpless_gets _).bind fun idle => ?_
    cases idle with
    | none => exact Jumpless.bind (fun _ _ _ h => by cases h) fun _ => jumpless_make _
    | some scope =>
      exact Jumpless.bind (fun _ _ _ h => by cases h) fun _ =>
        Jumpless.bind (fun _ _ _ h => by cases h) fun _ => jumpless_pure _

/-- A call of a function of the program raises no jump. -/
theorem jumpless_invoke_script {f : Function} (hf : f.isScript = true) (slot : Option Nat)
    (args : List Value) (caller : Nat) : Jumpless (invoke slot f args caller) := by
  rcases f with ⟨name, ps, ty, _ | body | _⟩ | _ | _ <;> try cases hf
  refine Jumpless.bind (fun _ _ _ h => by cases h) fun _ => ?_
  refine Jumpless.asCall (Jumpless.withResume ?_ []) name
  exact (jumpless_acquireScope slot).bind fun _ => jumpless_settle _

end Exec

/-! ## Runs -/

namespace Exec

section
variable {α β : Type} {n : Nat} {x y : Exec α} {f : α → Exec β} {take : Signal → Option (Exec α)}
variable {name : String} {body : Exec Value} {s t : State} {g : Signal}

/-- What comes next runs from where the first part has ended, -/
theorem run_bind_of_value {a : α} (h : x.run n s = (.value a, t)) : (x >>= f).run n s = (f a).run n t := by
  show (x >>= f) (evaluator n) s = _
  rw [bind_apply, show x (evaluator n) s = _ from h]
  rfl

/-- and does not run after a signal, -/
theorem run_bind_of_signal (h : x.run n s = (.signal g, t)) : (x >>= f).run n s = (.signal g, t) := by
  show (x >>= f) (evaluator n) s = _
  rw [bind_apply, show x (evaluator n) s = _ from h]

/-- or where the first part was stopped. -/
theorem run_bind_of_halted {k : Halt} (h : x.run n s = (.halted k, t)) :
    (x >>= f).run n s = (.halted k, t) := by
  show (x >>= f) (evaluator n) s = _
  rw [bind_apply, show x (evaluator n) s = _ from h]

theorem run_handle_of_taken (h : x.run n s = (.signal g, t)) (htake : take g = some y) :
    (handle x take).run n s = y.run n t := by
  show handle x take (evaluator n) s = _
  rw [handle, show x (evaluator n) s = _ from h]
  dsimp only
  rw [htake]
  rfl

theorem run_handle_of_passed (hpass : ∀ g, (x.run n s).1 = .signal g → take g = none) :
    (handle x take).run n s = x.run n s := by
  show handle x take (evaluator n) s = x (evaluator n) s
  change ∀ g, (x (evaluator n) s).1 = .signal g → take g = none at hpass
  rw [handle]
  generalize x (evaluator n) s = r at hpass
  obtain ⟨_ | g | _, t⟩ := r
  · rfl
  · dsimp only
    rw [hpass g rfl]
  · rfl

theorem run_asCall_of_error {e : EvalError} (hpush : s.session.calls.push name = .error e) :
    (asCall name body).run n s = (.signal (.error (s.session.calls.attach e)), s) := by
  show asCall name body (evaluator n) s = _
  rw [asCall_apply, hpush]

theorem run_asCall_of_ok {calls : CallStack} (hpush : s.session.calls.push name = .ok calls) :
    (asCall name body).run n s = endCall (body.run n (s.withCalls calls)) := by
  show asCall name body (evaluator n) s = _
  rw [asCall_apply, hpush]
  rfl

end

end Exec

/-! ## Evaluators -/

/-- The evaluator, with a bound, for an account of what a node does in a scope. -/
def evaluateBy (account : Node → Nat → Exec Value) : Nat → Node → Nat → State → Outcome Value × State
  | 0, _, _, s => (.halted .outOfFuel, s)
  | n + 1, node, scope, s =>
    (do Exec.enterNode; account node scope : Exec Value) (.untraced n (evaluateBy account n)) s

theorem evaluateNode_eq_evaluateBy (n : Nat) : evaluateNode n = evaluateBy Exec.dispatch n := by
  induction n with
  | zero => rfl
  | succ n ih =>
    funext node scope s
    show Exec.evalNode node scope (.untraced n (evaluateNode n)) s = _
    rw [ih]
    rfl

end TreeScript
