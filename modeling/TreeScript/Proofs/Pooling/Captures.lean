import TreeScript.Proofs.Pooling.Hosts

/-
# Scopes that callables have captured

A lambda or an unevaluated argument goes on using the scope in which it was made after the call that
made it has ended.  So no scope around it may be handed out to another call, nor be given back by one
that runs.  This holds at every moment of a history in which no handler begins in a call that has left
its scope early: where evaluations with and without pools are alike, what is held in the heap is neither
dead nor owned by a frame.
-/

namespace TreeScript

open Exec

/-- The scope that a callable holds. -/
def Callable.scope? : Callable → Option Nat
  | .function _ => none
  | .lambda _ _ scope | .deferred _ scope => some scope

/-- What a callable has captured: the scope that it holds, and those around it. -/
def Heap.capturedBy (h : Heap) (k : Nat) : List Nat :=
  ((h.callable k).scope?.map h.chain).getD []

/-- The slot that a callable means by a name. -/
def Heap.seenBy (h : Heap) (k : Nat) (x : String) : Option Nat :=
  (h.callable k).scope?.bind fun c => h.lookup c x

/-- No scope that a callable has captured is there for another call. -/
structure State.Pins (s : State) : Prop where
  /-- A call that begins does not get it. -/
  acquired : ∀ {function ev c t}, acquireScope function ev s = (.value c, t) →
    ∀ k, c ∉ s.heap.capturedBy k
  /-- It is not idle in the pool. -/
  idle : ∀ {k a}, a ∈ s.heap.capturedBy k → ∀ function, a ∉ s.session.pool.idle function
  /-- A call that ends, or leaves its scope early, does not give it back. -/
  owned : ∀ {k a}, a ∈ s.heap.capturedBy k → ∀ f ∈ s.session.frames, f.owned? ≠ some a

/-- A scope that a call gets is new, or was idle. -/
theorem Exec.acquireScope_cases {function : Option Nat} {ev : Evaluator} {s t : State} {c : Nat}
    (h : acquireScope function ev s = (.value c, t)) :
    c = s.heap.scopes.size ∨ ∃ f, c ∈ s.session.pool.idle f := by
  cases function with
  | none =>
    cases (acquireScope_none ev s).symm.trans h
    exact Or.inl rfl
  | some f =>
    rw [acquireScope_some] at h
    cases hacquire : s.session.pool.acquire? f with
    | none =>
      rw [hacquire] at h
      cases h
      exact Or.inl rfl
    | some p =>
      rw [hacquire] at h
      cases h
      refine Or.inr ⟨f, ?_⟩
      rw [(Pool.idle_of_acquire? hacquire).1]
      exact List.mem_cons_self

namespace Frame

/-- A frame owns the renamed scope. -/
theorem owned?_rename (image : Nat → Nat) (f : Frame) :
    (f.rename image).owned? = f.owned?.map image := by
  rcases f with ⟨_ | function, scope, _ | _, _ | _⟩ | _ <;> rfl

end Frame

namespace Pooling

variable {reserved : Nat → Nat → Prop} {w : World} {s s' : State}

/-! ## What is held in the heap -/

/-- What a callable has captured stands for a scope that is neither dead nor owned. -/
theorem Rel.captured (hs : Rel reserved w s s') {k a : Nat} (ha : a ∈ s.heap.capturedBy k) :
    ∃ b < w.size, w.image b = a ∧ ¬ w.dead b ∧ ¬ w.Owned b := by
  have hpinned : ∃ c c', w.Pinned c c' ∧ a ∈ s.heap.chain c := by
    unfold Heap.capturedBy at ha
    have halike := hs.callable k
    generalize s.heap.callable k = callee at ha halike
    generalize s'.heap.callable k = callee' at halike
    cases halike with
    | function _ => cases ha
    | lambda params body hpinned | deferred expr hpinned => exact ⟨_, _, hpinned, ha⟩
  obtain ⟨c, c', hpinned, ha⟩ := hpinned
  rw [(hs.scopes.chain hpinned).1] at ha
  obtain ⟨b, hb, rfl⟩ := List.mem_map.mp ha
  exact ⟨b, hpinned.known b hb, rfl, hpinned.live b hb, hpinned.clear b hb⟩

theorem Rel.pins (hs : Rel reserved w s s') : s.Pins := by
  have hidle : ∀ {k a}, a ∈ s.heap.capturedBy k → ∀ f, a ∉ s.session.pool.idle f := by
    intro k a h f hf
    obtain ⟨b, hb, himage, hlive, _⟩ := hs.captured h
    exact (hs.pooled.idle hf).unused b hb hlive himage
  refine ⟨fun {function ev c t} hacquire k h => ?_, hidle, fun {k a} h f hf ha => ?_⟩
  · rcases acquireScope_cases hacquire with rfl | ⟨f, hf⟩
    · obtain ⟨b, hb, himage, _⟩ := hs.captured h
      exact Nat.lt_irrefl _ (himage ▸ hs.scopes.image_lt b hb)
    · exact hidle h f hf
  · -- the frame owns a scope with the same image, which is alive too
    obtain ⟨b, hb, himage, hlive, howned⟩ := hs.captured h
    rw [hs.frames] at hf
    obtain ⟨g, hg, rfl⟩ := List.mem_map.mp hf
    rw [Frame.owned?_rename] at ha
    obtain ⟨d, hd, heq⟩ := Option.map_eq_some_iff.mp ha
    obtain ⟨hd', hdlive, _⟩ := hs.of_owned (owned_of_mem hg hd)
    have hbd : b = d := hs.scopes.injective b hb d hd' hlive hdlive (himage.trans heq.symm)
    exact howned (hbd ▸ owned_of_mem hg hd)

/-- Callables mean the same slots on both sides. -/
theorem Storage.seenBy {h h' : Heap} (hst : Storage w h h') {k : Nat} (hk : k < h.callables.size)
    (x : String) : h.seenBy k x = h'.seenBy k x := by
  have halike := hst.callables k hk
  unfold Heap.seenBy
  generalize h.callable k = callee at halike
  generalize h'.callable k = callee' at halike
  cases halike with
  | function _ => rfl
  | lambda params body hpinned | deferred expr hpinned => exact hst.scopes.lookup hpinned x

/-! ## Evaluations that are watched -/

section
variable (alarm : State → Bool) (mark : Output → Output)

theorem goesOn_printing : GoesOn (printing mark) := fun _ _ => ⟨_, rfl⟩

/-- Where an alarm goes off, something is printed, and that is all. -/
theorem watch_printing (ev : Evaluator) (s : State) :
    watch alarm (printing mark) ev s =
      (.value (), s.withOutput (if alarm s then mark s.session.output else s.session.output)) := by
  unfold watch
  split <;> rfl

/-- The evaluator that stops where a handler begins in a call that has left its scope early, and prints
where an alarm goes off. -/
def watchedWith (fuel : Nat) : Evaluator := observedBy watchedDispatch alarm (printing mark) fuel

/-- What is printed is not noticed. -/
theorem ready_watchedWith (fuel : Nat) :
    (unread True).toSimulation.Ready (watched fuel) (watchedWith alarm mark fuel) := by
  have hnever : watched fuel = observedBy watchedDispatch (fun _ => false) (pure ()) fuel :=
    (observedBy_never _ _).symm
  rw [hnever]
  refine ready_guarded (unread_kept True).lawful guarded_watchedDispatch guarded_watchedDispatch
    (guards_unread fun ev s h => ?_) (fun _ s => ⟨s, rfl⟩) (fun ev ev' {w s s'} hs => ?_) fuel
  · simp only [staying, h, Bool.false_eq_true, if_false]
  · obtain ⟨_, o, rfl, _⟩ := hs
    exact ⟨s, _, w, rfl, watch_printing alarm mark ev' _, trivial, trivial, _, rfl, Or.inl trivial⟩

/-- The evaluator does the same as the one that may stop, and prints the same. -/
theorem ready_observed (fuel : Nat) :
    (unread False).toSimulation.Ready (watchedWith alarm mark fuel)
      (observed alarm (printing mark) fuel) := by
  refine ready_guarded (unread_kept False).lawful guarded_watchedDispatch guarded_dispatch
    (guards_unread fun _ _ _ => rfl) (goesOn_printing mark) (fun ev ev' {w s s'} hs => ?_) fuel
  obtain rfl := hs.2.eq id
  exact ⟨_, _, w, watch_printing alarm mark ev s, watch_printing alarm mark ev' s, trivial,
    Invariant.rel_self trivial⟩

variable {alarm}

/-- An alarm that is silent where captured scopes are pinned does not go off where the evaluations with
and without pools are alike. -/
theorem ready_unpooled (halarm : ∀ s : State, s.Pins → alarm s = false) (fuel : Nat) :
    (simulation reserved).Ready (watchedWith alarm mark fuel) (evaluator fuel) := by
  rw [← observed_never]
  refine ready_guarded lawful guarded_watchedDispatch guarded_dispatch (guards_staying reserved)
    (goesOn_printing mark) (fun ev ev' {w s s'} hs => ?_) fuel
  have hrel : Rel reserved w s s' := hs
  have hsilent := watch_of_silent (halarm s hrel.pins) (printing mark) ev
  exact ⟨s, s', w, hsilent, rfl, .refl w, hs⟩

/-- Such an alarm is not noticed as long as the watched evaluator does not stop. -/
theorem observed_eq (halarm : ∀ s : State, s.Pins → alarm s = false) {x : Exec Value}
    (hx : Simulation.Fair x) (hjump : Jumpless x) (fuel : Nat) (hw : w.frames = [])
    (hs : Rel reserved w s s') (hstop : (x (watched fuel) s).1.isOutOfFuel = false) :
    x (observed alarm (printing mark) fuel) s = x (evaluator fuel) s := by
  have hprints := unread_ends hx (ready_watchedWith alarm mark fuel) s
  rw [hstop] at hprints
  obtain ⟨houtcome, o, hstate, _⟩ := hprints.resolve_left Bool.false_ne_true
  -- the evaluator with the alarm does not stop either
  have hstop' : (x (watchedWith alarm mark fuel) s).1.isOutOfFuel = false := houtcome ▸ hstop
  have hsilent : x (watchedWith alarm mark fuel) s = x (watched fuel) s := by
    have hleft := ends_unpooled hx hjump (ready_unpooled mark halarm fuel) hw hs
    have hright := ends_watched hx hjump fuel hw hs
    rw [hstop'] at hleft
    rw [hstop] at hright
    obtain ⟨_, _, _, hrel⟩ := hleft.resolve_left Bool.false_ne_true
    obtain ⟨_, _, _, hrel'⟩ := hright.resolve_left Bool.false_ne_true
    -- both have printed what is printed without a pool
    have houtput : o = (x (watched fuel) s).2.session.output := by
      have heq := hrel.output.trans hrel'.output.symm
      rw [hstate] at heq
      exact heq
    refine Prod.ext houtcome.symm (hstate.trans ?_)
    rw [houtput]
    rfl
  have hobserved := unread_ends hx (ready_observed alarm mark fuel) s
  have hplain := watched_eq hx fuel s
  rw [hstop'] at hobserved
  rw [hstop] at hplain
  obtain ⟨houtcome', hstate'⟩ := hobserved.resolve_left Bool.false_ne_true
  have hsame : x (watchedWith alarm mark fuel) s = x (observed alarm (printing mark) fuel) s :=
    Prod.ext houtcome' (hstate'.eq id)
  rw [← hsame, hsilent]
  exact hplain.resolve_left Bool.false_ne_true

end

/-! ## Histories -/

section
variable {alarm : State → Bool} {mark : Output → Output} {host host' : Host}

theorem Hosts.run_observed (h : Hosts w host host')
    (halarm : ∀ s : State, s.Pins → alarm s = false) (k fuel : Nat) {x : Exec Value}
    (hx : Simulation.Fair x) (hjump : Jumpless x)
    (hstop : (host.runWith k (watched fuel) x).1.isOutOfFuel = false) :
    host.runWith k (observed alarm (printing mark) fuel) x = host.runWith k (evaluator fuel) x := by
  unfold Host.runWith at hstop ⊢
  rcases h.session? k with ⟨hs, _⟩ | ⟨s, s', hs, hs'⟩
  · rw [hs]
  · rw [hs] at hstop ⊢
    dsimp only at hstop ⊢
    rw [observed_eq mark halarm hx hjump fuel h.frames (h.session hs hs') hstop]

theorem Hosts.answer_observed (h : Hosts w host host')
    (halarm : ∀ s : State, s.Pins → alarm s = false) (fuel : Nat) (r : Request)
    (hstop : (host.answer (fun _ => watched fuel) r).1.isOutOfFuel = false) :
    host.answer (fun _ => observed alarm (printing mark) fuel) r =
      host.answer (fun _ => evaluator fuel) r := by
  cases r with
  | evaluate k e =>
    exact h.run_observed halarm k fuel (Simulation.fair_evaluate e) (jumpless_evaluate e) hstop
  | callFunction k name args =>
    exact h.run_observed halarm k fuel (Simulation.fair_callFunction name args)
      (jumpless_callFunction name args) hstop
  | start _ | prepare _ | addFunction _ _ | removeFunction _ _ _ | setParser _ _ | cancel _ _
  | takeOutput _ => rfl

theorem Hosts.serve_observed (h : Hosts w host host')
    (halarm : ∀ s : State, s.Pins → alarm s = false) (fuel : Nat) (rs : List Request)
    (hstop : ∀ o ∈ (host.serve (fun _ => watched fuel) rs).1, o.isOutOfFuel = false) :
    host.serve (fun _ => observed alarm (printing mark) fuel) rs =
      host.serve (fun _ => evaluator fuel) rs := by
  induction rs generalizing host host' w with
  | nil => rfl
  | cons r rs ih =>
    have hfirst := hstop _ List.mem_cons_self
    obtain ⟨heq, _, w₁, hhosts⟩ := h.answer fuel r hfirst
    have hrest := ih hhosts fun o ho => by
      rw [← heq] at ho
      exact hstop o (List.mem_cons_of_mem _ ho)
    simp only [Host.serve, h.answer_observed halarm fuel r hfirst, hrest]

end

end Pooling

namespace Host

/-- A property of states holds at every moment of a history: whatever is printed where an alarm goes off
that is silent where the property holds, it is as if nothing were. -/
def Throughout (P : State → Prop) (fuel : Nat) (rs : List Request) : Prop :=
  ∀ (alarm : State → Bool) (mark : Output → Output), (∀ s, P s → alarm s = false) →
    empty.serve (fun _ => observed alarm (printing mark) fuel) rs =
      empty.serve (fun _ => evaluator fuel) rs

/-- **Captured scopes are pinned.**  In a history in which no handler begins in a call that has left its
scope early, no scope that a callable has captured is handed out to a call or given back by one, at any
moment; and in the end every callable means the slots that it means if every call has a scope of its
own. -/
theorem closures_keep_scopes (fuel : Nat) (rs : List Request)
    (hstop : ∀ o ∈ (empty.serve (fun _ => Pooling.watched fuel) rs).1, o.isOutOfFuel = false) :
    let left := (empty.serve (fun _ => evaluator fuel) rs).2
    let right := (empty.serve (fun _ => evaluator fuel) (rs.map Pooling.unpooledRequest)).2
    Throughout State.Pins fuel rs ∧
      ∀ k < left.heap.callables.size, ∀ x, left.heap.seenBy k x = right.heap.seenBy k x := by
  intro left right
  refine ⟨fun alarm mark halarm => Pooling.hosts_empty.serve_observed halarm fuel rs hstop, ?_⟩
  obtain ⟨_, w, hhosts⟩ := Pooling.hosts_empty.serve fuel rs hstop
  exact fun k hk x => hhosts.toStorage.seenBy hk x

/-- The settings of a session with the core library. -/
def furnished : Settings := ⟨.test, .buffer "", false, true, 64⟩

/-- The function `fn g() { throw exception("x") }`. -/
def thrower : FunctionDecl Node :=
  ⟨"g", [], .any, .throwValue (.call 0 "exception" [.literal (.str "x")]), false⟩

/-- The function `fn f(n) { try { g() } catch e { lambda [] -> n } }`. -/
def capturer : FunctionDecl Node :=
  ⟨"f", [⟨"n", .int⟩], .any, .tryCatch (.call 1 "g" []) "e" (.lambda [] (.var "n")), false⟩

/-- The same with the call as a result: `try { return g() } catch e { lambda [] -> n }`. -/
def lateCapturer : FunctionDecl Node :=
  ⟨"f", [⟨"n", .int⟩], .any,
    .tryCatch (.returnWith (some (.call 1 "g" []))) "e" (.lambda [] (.var "n")), false⟩

/-- A lambda that `f(1)` has made is called after `f(2)`. -/
def captureTwice (f : FunctionDecl Node) : List Request :=
  [.start furnished, .prepare 5, .evaluate 0 (.functionDef thrower), .evaluate 0 (.functionDef f),
    .evaluate 0 (.declare .any "l" (some (.call 2 "f" [.literal (.int 1)]))),
    .evaluate 0 (.call 3 "f" [.literal (.int 2)]),
    .evaluate 0 (.call 4 "consumer.accept" [.var "l"])]

/-- A lambda that is made in a handler keeps the variable of its call. -/
theorem closures_keep_scopes_handler :
    let rs := captureTwice capturer
    (∀ o ∈ (empty.serve (fun _ => Pooling.watched 20) rs).1, o.isOutOfFuel = false) ∧
      Throughout State.Pins 20 rs ∧
      answers rs = [.null, .null, .null, .null, .callable 0, .callable 1, .int 1] := by
  intro rs
  have hstop : ∀ o ∈ (empty.serve (fun _ => Pooling.watched 20) rs).1, o.isOutOfFuel = false := by
    decide +kernel
  exact ⟨hstop, (closures_keep_scopes 20 rs hstop).1, by decide +kernel⟩

/-- Whether the scope that the first callable has captured is idle for the function `f`. -/
def lateAlarm (s : State) : Bool :=
  (s.session.catalog.callee? "f" 1).any fun callee =>
    (s.session.pool.idle callee.1).any fun a => decide (a ∈ s.heap.capturedBy 0)

/-- A lambda that is made in a handler of a call that has left its scope early loses its scope to the
next call: it gives 2 with a pool, and 1 without. -/
theorem lateCapturer_forgets :
    let rs := captureTwice lateCapturer
    ¬ Throughout State.Pins 20 rs ∧
      answers rs = [.null, .null, .null, .null, .callable 0, .callable 1, .int 2] ∧
      answers (rs.map Pooling.unpooledRequest) =
        [.null, .null, .null, .null, .callable 0, .callable 1, .int 1] := by
  refine ⟨fun h => ?_, by decide +kernel, by decide +kernel⟩
  have hsilent : ∀ s : State, s.Pins → lateAlarm s = false := by
    intro s hs
    unfold lateAlarm
    cases s.session.catalog.callee? "f" 1 with
    | none => rfl
    | some callee =>
      refine List.any_eq_false.mpr fun a ha => ?_
      have hfree : a ∉ s.heap.capturedBy 0 := fun hcaptured => hs.idle hcaptured callee.1 ha
      simpa using hfree
  -- the alarm is noticed, since what is printed where it goes off is
  have houtput := congrArg (fun r => r.2.sessions[0]?.map Session.output)
    (h lateAlarm (·.print "!") hsilent)
  revert houtput
  decide +kernel

end Host
end TreeScript
