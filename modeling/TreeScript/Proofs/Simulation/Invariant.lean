import TreeScript.Proofs.Simulation.Host

/-
# Invariants

A property of states that evaluations keep is a simulation of a run by itself: the two sides are the
same state, of which the property holds.  What the property says may depend on a world, which changes
as the run proceeds.

A run may also be compared with one that prints something else where the property fails: once a world
is *marked*, the two sides may differ in what they have printed, and in nothing else, since nothing that
is evaluated reads it.

An invariant that is kept by every operation on states is `Upheld`, and gives a lawful simulation.
Whatever is evaluated on the two sides then ends alike (`of_ends`), and for an invariant without marks
it is the same run (`eq_of_ends`).
-/

namespace TreeScript

open Exec

/-! ## What is printed -/

namespace State

/-- The same state, but for what has been printed where this is allowed. -/
def Beside (allowed : Prop) (s s' : State) : Prop :=
  ∃ o, s' = s.withOutput o ∧ (allowed ∨ o = s.session.output)

/-- A change of states that neither reads nor changes what has been printed. -/
def Silent (f : State → State) : Prop := ∀ s o, f (s.withOutput o) = (f s).withOutput o

variable {allowed allowed' : Prop} {s s' : State} {f : State → State}

theorem Beside.refl (allowed : Prop) (s : State) : Beside allowed s s :=
  ⟨s.session.output, rfl, Or.inr rfl⟩

theorem Beside.eq (h : Beside allowed s s') (hallowed : ¬ allowed) : s = s' := by
  obtain ⟨o, rfl, ho⟩ := h
  obtain rfl := ho.resolve_left hallowed
  rfl

theorem Silent.output (hf : Silent f) (s : State) : (f s).session.output = s.session.output :=
  congrArg (·.session.output) (hf s s.session.output)

theorem Beside.map (h : Beside allowed s s') (hf : Silent f) (hallowed : allowed → allowed') :
    Beside allowed' (f s) (f s') := by
  obtain ⟨o, rfl, ho⟩ := h
  exact ⟨o, hf s o, ho.imp hallowed fun h => h.trans (hf.output s).symm⟩

theorem silent_leaveFrame : Silent leaveFrame := by
  rintro ⟨h, sites, held, ⟨_, _, _, _, _, _, _, _, _, _, frames, _, _⟩⟩ o
  rcases frames with _ | ⟨⟨_ | slot, c, _ | _, _ | _⟩ | _, rest⟩ <;> rfl

theorem silent_retainFrame : Silent fun s => s.withSession s.session.retainFrame := by
  rintro ⟨h, sites, held, ⟨_, _, _, _, _, _, _, _, _, _, frames, _, _⟩⟩ o
  rcases frames with _ | ⟨_ | _, rest⟩ <;> rfl

theorem silent_releaseFrame : Silent fun s => s.withSession s.session.releaseFrame := by
  rintro ⟨h, sites, held, ⟨_, _, _, _, _, _, _, _, _, _, frames, _, _⟩⟩ o
  rcases frames with _ | ⟨⟨_ | slot, c, _ | _, _ | _⟩ | _, rest⟩ <;> rfl

/-- A scope is acquired alike, whatever has been printed. -/
theorem acquireScope_withOutput (function : Option Nat) (s : State) :
    ∃ c t, (∀ ev, acquireScope function ev s = (.value c, t)) ∧
      (∀ ev o, acquireScope function ev (s.withOutput o) = (.value c, t.withOutput o)) ∧
      t.session.output = s.session.output := by
  cases function with
  | none => exact ⟨_, _, fun ev => acquireScope_none ev s, fun _ _ => rfl, rfl⟩
  | some slot =>
    have hpool : ∀ o, (s.withOutput o).session.pool = s.session.pool := fun _ => rfl
    simp only [acquireScope_some, hpool]
    cases s.session.pool.acquire? slot with
    | none => exact ⟨_, _, fun _ => rfl, fun _ _ => rfl, rfl⟩
    | some p => exact ⟨_, _, fun _ => rfl, fun _ _ => rfl, rfl⟩

end State

/-! ## Invariants -/

/-- A property of states, in a world that changes as the run proceeds. -/
structure Invariant where
  World : Type
  le : World → World → Prop
  holds : World → State → Prop
  /-- The ways back that a suspension may have. -/
  way : World → List ResumeFrame → Prop
  /-- The nodes that the body which runs may evaluate. -/
  fits : World → Node → Prop
  /-- The second world is that of a body which begins in the first. -/
  enters : World → World → Prop
  /-- The values that a slot of a type may hold. -/
  suits : World → TypeKind → Value → Prop := fun _ _ _ => True
  /-- The slots that are known, with their types. -/
  typed : World → Nat → TypeKind → Prop := fun _ _ _ => True
  /-- The slots that may be written to. -/
  writable : World → Nat → Prop := fun _ _ => True
  /-- The second side may have printed something else. -/
  marked : World → Prop := fun _ => False
  /-- Nothing is said about a run that reaches its bound. -/
  lax : Prop := False

namespace Invariant

/-- A run beside itself. -/
def toSimulation (I : Invariant) : Simulation where
  World := I.World
  le := I.le
  unwound := I.le
  rel w s s' := I.holds w s ∧ s.Beside (I.marked w) s'
  scope _ c c' := c = c'
  pinned _ c c' := c = c'
  way w fs fs' := fs = fs' ∧ I.way w fs
  fits := I.fits
  enters := I.enters
  closed _ := True
  suits := I.suits
  typed := I.typed
  writable := I.writable
  lax := I.lax

variable (I : Invariant)

/-- The nodes that a function evaluates in the body of its caller fit there. -/
def Allows (w : I.World) (f : Function) : Prop := I.toSimulation.Allows w f

/-- The body which runs may evaluate a node of a kind. -/
def Permits (w : I.World) (kind : Node → Bool) : Prop := I.toSimulation.Permits w kind

/-- Something begins in a state, in a world of its own. -/
def Begins (w w₁ : I.World) (s : State) : Prop := I.holds w₁ s ∧ (I.marked w → I.marked w₁)

/-- The world after something that has ended in the second world. -/
def Returns (w w₁ : I.World) (back : State → State) : Prop :=
  ∀ w₂ t, I.le w₁ w₂ → I.holds w₂ t →
    ∃ w₃, I.le w w₃ ∧ I.holds w₃ (back t) ∧ (I.marked w₂ → I.marked w₃)

/-- The world after something that a `yield` may have left. -/
def Passes (w w₁ : I.World) (back : State → State) : Prop :=
  ∀ w₂ t, I.le w₁ w₂ → I.holds w₂ t →
    ∃ w₃, I.le w w₃ ∧ I.holds w₃ (back t) ∧ (I.marked w₂ → I.marked w₃) ∧
      ∀ fs, I.way w₂ fs → I.way w₃ fs

/-! ### What is to be shown of an invariant -/

/-- The laws of its worlds. -/
structure Worlds : Prop where
  le_refl : ∀ w, I.le w w
  le_trans : ∀ {w₁ w₂ w₃}, I.le w₁ w₂ → I.le w₂ w₃ → I.le w₁ w₃
  way_mono : ∀ {w w' fs}, I.le w w' → I.way w fs → I.way w' fs
  fits_mono : ∀ {w w' e}, I.le w w' → I.fits w e → I.fits w' e
  marked_mono : ∀ {w w'}, I.le w w' → I.marked w → I.marked w'
  fits_part : ∀ {w e p}, I.fits w e → p ∈ e.parts → I.fits w p
  enters_fits : ∀ {w w₁} (e), I.enters w w₁ → I.fits w₁ e

/-- What it knows of types. -/
structure Types : Prop where
  suits_mono : ∀ {w w' ty v}, I.le w w' → I.suits w ty v → I.suits w' ty v
  typed_mono : ∀ {w w' i ty}, I.le w w' → I.typed w i ty → I.typed w' i ty
  learn : ∀ {w s}, I.holds w s →
    ∃ w', I.le w w' ∧ I.holds w' s ∧ I.toSimulation.Learnt w' s.heap
  suits_any : ∀ w v, I.suits w .any v
  suits_this : ∀ {w s cls i}, I.holds w s → I.suits w (.object cls) (.object i) →
    I.suits w (.object (s.heap.classOf i).name) (.object i)
  typed_slot : ∀ {w s i ty}, I.holds w s → I.typed w i ty → I.typed w i (s.heap.slot i).type
  writable_slot : ∀ {w s i ty}, I.holds w s → I.typed w i ty → (s.heap.slot i).isMutable = true →
    I.writable w i

/-- The operations on states keep it. -/
structure Operations : Prop where
  withStores : ∀ {w s st}, I.holds w s → s.heap.Grows st →
    I.holds w (s.withHeap (s.heap.withStores st))
  setValue : ∀ {w s i ty v}, I.holds w s → I.typed w i ty → I.writable w i → I.suits w ty v →
    I.holds w (s.withHeap (s.heap.setValue i v))
  withHeld : ∀ {w s} (held), I.holds w s → I.holds w (s.withHeld held)
  newScope : ∀ {w s} (c), I.holds w s → I.holds w (s.withHeap (s.heap.newScope c).2)
  declareSlot : ∀ {w s} (c x) {slot : Slot}, I.holds w s → I.suits w slot.type slot.value →
    I.holds w (s.withHeap (s.heap.declareSlot c x slot))
  unbind : ∀ {w s} (c x), I.holds w s → I.holds w (s.withHeap (s.heap.unbind c x).2)
  retain : ∀ {w s}, I.holds w s →
    ∃ w', I.le w w' ∧ I.holds w' (s.withSession s.session.retainFrame)
  release : ∀ {w s}, I.holds w s →
    ∃ w', I.le w w' ∧ I.holds w' (s.withSession s.session.releaseFrame)
  addObject : ∀ {w s} (o : Instance), I.holds w s →
    I.holds w (s.withHeap { s.heap with objects := s.heap.objects.push o })
  callable : ∀ {w s i f}, I.holds w s → I.Permits w Node.isCall →
    s.heap.callable i = .function f → I.Allows w f
  addCallable : ∀ {w s k}, I.holds w s → (∀ f, k ≠ .function f) →
    I.holds w (s.withHeap (s.heap.newCallable k).2)
  addCoroutine : ∀ {w s} (c : Coroutine), I.holds w s → c.state = .created → c.frames = [] →
    I.toSimulation.ArgsSuit w c.params c.args →
    I.holds w (s.withHeap { s.heap with coroutines := s.heap.coroutines.push c })
  allows : ∀ {w s slot f}, I.holds w s → I.Permits w Node.isCall →
    s.session.catalog.get? slot = some f → I.Allows w f
  addFunction : ∀ {w s f}, I.holds w s → f.isNative = false →
    I.holds w (s.withSession (s.session.addFunction f))
  withClasses : ∀ {w s} (classes), I.holds w s →
    I.holds w (s.withSession { s.session with classes := classes })
  reserve : ∀ {w s} (n), I.holds w s → I.holds w (s.withSites (s.sites.reserve n))
  remember : ∀ {w s} (site slot), I.holds w s →
    ((s.sites.get? site s.session.id).bind s.session.catalog.get?) = none →
    I.holds w (s.withSites (s.sites.set site s.session.id slot))
  parsed : ∀ {w s parse template e} (n), I.holds w s → I.fits w (.template template) →
    s.session.parser? = some parse → Template.Expression parse template e →
    I.fits w (e.numbered n).1
  withMeter : ∀ {w s} (m), I.holds w s → I.holds w (s.withMeter m)
  withOutput : ∀ {w s} (o), I.holds w s → I.holds w (s.withOutput o)
  withCancellation : ∀ {w s} (c), I.holds w s → I.holds w (s.withCancellation c)
  nextFrame : ∀ {w s f rest}, I.holds w s → I.Permits w Node.takesFrame →
    s.session.resume = f :: rest → ∃ w', I.le w w' ∧ I.holds w' (s.withResume rest)
  forget : ∀ {w s}, I.holds w s → (∀ e, I.fits w e) →
    ∃ w', I.le w w' ∧ I.holds w' (s.withResume [])
  way_yield : ∀ {w e}, I.fits w (.yieldWith e) → I.way w [.atYield]
  way_cons : ∀ {w f fs}, I.Permits w Node.isStatement → f ≠ .atYield → I.way w fs →
    I.way w (f :: fs)

/-- The boundaries keep it. -/
structure Boundaries : Prop where
  call : ∀ {w s name calls}, I.holds w s → s.session.calls.push name = .ok calls →
    ∃ w₁, I.toSimulation.Inside w w₁ ∧ I.Begins w w₁ (s.withCalls calls) ∧
      I.Passes w w₁ fun t => t.withCalls t.session.calls.pop
  barrier : ∀ {w s}, I.holds w s → ∃ w₁, I.enters w w₁ ∧ I.Begins w w₁ (enterBody [] s) ∧
    I.Returns w w₁ fun t => (leaveFrame t).withResume s.session.resume
  callScope : ∀ {w s function c t}, I.holds w s → I.Permits w Node.isCall →
    (∀ ev, acquireScope function ev s = (.value c, t)) → ∃ w₁, I.enters w w₁ ∧
      I.Begins w w₁ (t.withFrames (.pooled function c false false :: t.session.frames)) ∧
      I.Returns w w₁ leaveFrame
  /-- What native code does for a body, it does as the body. -/
  aside : ∀ {w s}, I.holds w s → I.Permits w Node.isCall →
    ∃ w₁, (∀ e, I.fits w e → I.fits w₁ e) ∧ I.Begins w w₁ (s.withResume []) ∧
      I.Passes w w₁ (·.withResume s.session.resume)
  resumed : ∀ {w s i frames running}, I.holds w s →
    (s.heap.coroutine i).begin? = .ok (some (frames, running)) →
    ∃ w₁, I.enters w w₁ ∧
      I.Begins w w₁ (enterBody frames (s.withHeap (s.heap.setCoroutine i running))) ∧
      (I.Returns w w₁ fun t => finishCoroutine i ((leaveFrame t).withResume s.session.resume)) ∧
      ∀ w₂ t fs, I.le w₁ w₂ → I.holds w₂ t → I.way w₂ fs →
        ∃ w₃, I.le w w₃ ∧
          I.holds w₃ (suspendCoroutine i fs ((leaveFrame t).withResume s.session.resume)) ∧
          (I.marked w₂ → I.marked w₃)

/-- Everything that an evaluation does keeps it. -/
structure Upheld : Prop extends I.Worlds, I.Types, I.Operations, I.Boundaries

/-- Nothing is known of types. -/
structure Untyped : Prop where
  suits : ∀ w ty v, I.suits w ty v
  typed : ∀ w i ty, I.typed w i ty
  writable : ∀ w i, I.writable w i

/-! ### The simulation -/

variable {I}

theorem rel_self {w : I.World} {s : State} (h : I.holds w s) : I.toSimulation.rel w s s :=
  ⟨h, .refl _ s⟩

/-- A callable is the same as itself. -/
theorem sameCallable {w : I.World} {k : Callable} (h : ∀ f, k = .function f → I.Allows w f) :
    I.toSimulation.SameCallable w k k := by
  cases k with
  | function f => exact .function (h f rfl)
  | lambda params body c => exact .lambda params body rfl
  | deferred expr c => exact .deferred expr rfl

/-- Without marks the two sides are the same state. -/
theorem rel_iff (hmarked : ∀ w, ¬ I.marked w) {w : I.World} {s s' : State} :
    I.toSimulation.rel w s s' ↔ s = s' ∧ I.holds w s := by
  constructor
  · exact fun h => ⟨h.2.eq (hmarked w), h.1⟩
  · rintro ⟨rfl, hs⟩
    exact rel_self hs

theorem eq_of_sameCallable {w : I.World} {k k' : Callable}
    (h : I.toSimulation.SameCallable w k k') : k = k' := by
  cases h with
  | function _ => rfl
  | lambda params body h => cases h; rfl
  | deferred expr h => cases h; rfl

/-- A frame leads to the same place as itself. -/
theorem sameFrame (w : I.World) (f : ResumeFrame) : I.toSimulation.SameFrame w f f := by
  rcases f with _ | i | ⟨arm, c⟩ | c | ⟨c, current, stop⟩ | ⟨c, source⟩ | (_ | c)
  · exact .atYield
  · exact .inBlock i
  · exact .inBranch arm rfl
  · exact .inWhile rfl
  · exact .inRange current stop rfl
  · exact .inEach source rfl
  · exact .inBody
  · exact .inHandler rfl

theorem eq_of_sameFrame {w : I.World} {f f' : ResumeFrame} (h : I.toSimulation.SameFrame w f f') :
    f = f' := by
  cases h with
  | atYield | inBlock | inBody => rfl
  | inBranch _ h | inWhile h | inRange _ _ h | inEach _ h | inHandler h => cases h; rfl

theorem Untyped.types (hun : I.Untyped) (hle : ∀ w, I.le w w) : I.Types where
  suits_mono _ _ := hun.suits _ _ _
  typed_mono _ _ := hun.typed _ _ _
  learn {w _} hs := ⟨w, hle w, hs, fun _ => hun.suits _ _ _, fun _ => ⟨.any, hun.typed _ _ _⟩,
    fun _ => ⟨.any, hun.typed _ _ _⟩, fun _ _ _ => hun.suits _ _ _⟩
  suits_any w v := hun.suits w .any v
  suits_this _ _ := hun.suits _ _ _
  typed_slot _ _ := hun.typed _ _ _
  writable_slot _ _ _ := hun.writable _ _

/-! ### Boundaries -/

variable {w w₁ w₂ : I.World} {back : State → State} {t t' : State}

theorem Passes.returns (h : I.Passes w w₁ back) : I.Returns w w₁ back := by
  intro w₂ t hle ht
  obtain ⟨w₃, hle₃, ht₃, hmarked, _⟩ := h w₂ t hle ht
  exact ⟨w₃, hle₃, ht₃, hmarked⟩

theorem Begins.rel {s s' : State} (h : I.Begins w w₁ s) (hs : s.Beside (I.marked w) s') :
    I.toSimulation.rel w₁ s s' :=
  ⟨h.1, hs.map (f := id) (fun _ _ => rfl) h.2⟩

theorem Returns.rel (h : I.Returns w w₁ back) (hback : State.Silent back) (hle : I.le w₁ w₂)
    (ht : I.toSimulation.rel w₂ t t') :
    ∃ w₃, I.le w w₃ ∧ I.toSimulation.rel w₃ (back t) (back t') := by
  obtain ⟨w₃, hle₃, ht₃, hmarked⟩ := h w₂ t hle ht.1
  exact ⟨w₃, hle₃, ht₃, ht.2.map hback hmarked⟩

/-- A body that a signal leaves ends in a later world. -/
theorem le_of_raised {g g' : Signal} (h : I.toSimulation.Raised w w₁ g g') : I.le w w₁ := by
  cases h <;> assumption

/-- What settles at a boundary returns to the world outside. -/
theorem Returns.ends_settled {p q : Outcome Value × State} (h : I.Returns w w₁ back)
    (hback : State.Silent back) (hends : I.toSimulation.Ends w₁ (fun _ a b => a = b) p q) :
    I.toSimulation.Ends w (fun _ a b => a = b) (settled p.1, back p.2) (settled q.1, back q.2) := by
  cases hends with
  | value hle ht hab =>
    cases hab
    obtain ⟨w₃, hle₃, ht₃⟩ := h.rel hback hle ht
    exact .value hle₃ ht₃ rfl
  | signal hg ht =>
    obtain ⟨w₃, hle₃, ht₃⟩ := h.rel hback (le_of_raised hg) ht
    cases hg with
    | breakLoop | continueLoop | yieldValue | returnValue => exact .value hle₃ ht₃ rfl
    | throwValue v => exact .signal (.throwValue v hle₃) ht₃
    | error e => exact .signal (.error e hle₃) ht₃
  | halted k hle ht =>
    obtain ⟨w₃, hle₃, ht₃⟩ := h.rel hback hle ht
    exact .halted k hle₃ ht₃
  | stopped t r hlax => exact .stopped _ _ hlax

/-- What passes a boundary returns to the world outside. -/
theorem Passes.ends {p q : Outcome Value × State} (h : I.Passes w w₁ back)
    (hback : State.Silent back) (hends : I.toSimulation.Ends w₁ (fun _ a b => a = b) p q) :
    I.toSimulation.Ends w (fun _ a b => a = b) (p.1, back p.2) (q.1, back q.2) := by
  cases hends with
  | value hle ht hab =>
    obtain ⟨w₃, hle₃, ht₃⟩ := h.returns.rel hback hle ht
    exact .value hle₃ ht₃ hab
  | signal hg ht =>
    obtain ⟨w₃, hle₃, ht₃, hmarked, hway⟩ := h _ _ (le_of_raised hg) ht.1
    refine .signal ?_ ⟨ht₃, ht.2.map hback hmarked⟩
    cases hg with
    | breakLoop v => exact .breakLoop v hle₃
    | continueLoop => exact .continueLoop hle₃
    | yieldValue v _ hfs => exact .yieldValue v hle₃ ⟨hfs.1, hway _ hfs.2⟩
    | returnValue v => exact .returnValue v hle₃
    | throwValue v => exact .throwValue v hle₃
    | error e => exact .error e hle₃
  | halted k hle ht =>
    obtain ⟨w₃, hle₃, ht₃⟩ := h.returns.rel hback hle ht
    exact .halted k hle₃ ht₃
  | stopped t r hlax => exact .stopped _ _ hlax

/-- What leaves the body of a coroutine returns to the world outside. -/
theorem ends_leaveCoroutine {i : Nat} {outer : List ResumeFrame} {p q : Outcome Value × State}
    (hfinish : I.Returns w w₁ fun t => finishCoroutine i ((leaveFrame t).withResume outer))
    (hsuspend : ∀ w₂ t fs, I.le w₁ w₂ → I.holds w₂ t → I.way w₂ fs →
      ∃ w₃, I.le w w₃ ∧ I.holds w₃ (suspendCoroutine i fs ((leaveFrame t).withResume outer)) ∧
        (I.marked w₂ → I.marked w₃))
    (hends : I.toSimulation.Ends w₁ (fun _ a b => a = b) p q) :
    I.toSimulation.Ends w (fun _ a b => a = b) (leaveCoroutine i outer p)
      (leaveCoroutine i outer q) := by
  have hsilent : ∀ f : State → State, State.Silent f →
      State.Silent fun t => f ((leaveFrame t).withResume outer) := by
    intro f hf t out
    dsimp only
    rw [State.silent_leaveFrame]
    exact hf ((leaveFrame t).withResume outer) out
  -- the coroutine is finished unless it is left by a `yield`
  have hfinished := hfinish.ends_settled (hsilent (finishCoroutine i) fun _ _ => rfl) hends
  cases hends with
  | value _ _ _ | halted _ _ _ => exact hfinished
  | stopped t r hlax => exact .stopped _ _ hlax
  | signal hg ht =>
    cases hg with
    | @yieldValue v fs fs' hle hfs =>
      obtain ⟨rfl, hfs⟩ := hfs
      obtain ⟨w₃, hle₃, ht₃, hmarked⟩ := hsuspend _ _ _ hle ht.1 hfs
      have hbeside := ht.2.map (hsilent (suspendCoroutine i fs) fun _ _ => rfl) hmarked
      exact .value hle₃ ⟨ht₃, hbeside⟩ rfl
    | _ => exact hfinished

namespace Upheld

variable (K : I.Upheld)
include K

theorem ordered : I.toSimulation.Ordered where
  le_refl := K.le_refl
  le_trans := K.le_trans
  unwound_of_le h := h
  unwound_trans := K.le_trans
  scope_of_pinned h := h
  scope_mono _ h := h
  pinned_mono _ h := h
  way_mono h hway := ⟨hway.1, K.way_mono h hway.2⟩
  fits_mono := K.fits_mono
  closed_mono _ _ := trivial
  le_of_closed _ h := h

theorem nodeLaws : I.toSimulation.NodeLaws where
  fits_part := K.fits_part
  enters_fits := K.enters_fits
  enters_pinned _ h := h

/-- A world that knows more. -/
theorem rel_mono {w w' : I.World} {s s' : State} (hle : I.le w w') (hs : I.holds w' s)
    (h : s.Beside (I.marked w) s') : I.toSimulation.rel w' s s' :=
  ⟨hs, h.map (f := id) (fun _ _ => rfl) (K.marked_mono hle)⟩

theorem valueLaws : I.toSimulation.ValueLaws where
  alike := by
    rintro w s _ ⟨_, o, rfl, _⟩
    exact .refl s.heap
  withStores := by
    rintro w s _ st ⟨hs, o, rfl, ho⟩ hst
    exact ⟨K.withStores hs hst, o, rfl, ho⟩
  setValue := by
    rintro w s _ i ty v ⟨hs, o, rfl, ho⟩ hi hwritable hv
    exact ⟨K.setValue hs hi hwritable hv, o, rfl, ho⟩
  held := by
    rintro w s _ ⟨_, o, rfl, _⟩
    rfl
  withHeld held := by
    rintro ⟨hs, o, rfl, ho⟩
    exact ⟨K.withHeld held hs, o, rfl, ho⟩

theorem typingLaws : I.toSimulation.TypingLaws where
  suits_mono := K.suits_mono
  typed_mono := K.typed_mono
  learn := by
    rintro w s s' ⟨hs, hbeside⟩
    obtain ⟨w', hle, hs', hlearnt⟩ := K.learn hs
    exact ⟨w', hle, K.rel_mono hle hs' hbeside, hlearnt⟩
  suits_any := K.suits_any
  suits_this h := K.suits_this h.1
  typed_slot h := K.typed_slot h.1
  writable_slot h := K.writable_slot h.1

theorem scopeLaws : I.toSimulation.ScopeLaws where
  lookup x := by
    rintro ⟨_, o, rfl, _⟩ rfl
    rfl
  lookupLocal x := by
    rintro ⟨_, o, rfl, _⟩ rfl
    rfl
  newScope := by
    rintro w s _ c _ ⟨hs, o, rfl, ho⟩ rfl
    exact ⟨w, K.le_refl w, rfl, fun _ => rfl, K.newScope c hs, o, rfl, ho⟩
  declareSlot x slot := by
    rintro ⟨hs, o, rfl, ho⟩ rfl hslot
    exact ⟨K.declareSlot _ x hs hslot, o, rfl, ho⟩
  unbind x := by
    rintro ⟨hs, o, rfl, ho⟩ rfl
    exact ⟨K.unbind _ x hs, o, rfl, ho⟩
  root := by
    rintro w s _ ⟨_, o, rfl, _⟩
    rfl
  retain := by
    rintro w s s' ⟨hs, hbeside⟩
    obtain ⟨w', hle, hs'⟩ := K.retain hs
    refine ⟨w', hle, fun _ _ h => h, hs', ?_⟩
    exact hbeside.map State.silent_retainFrame (K.marked_mono hle)
  release := by
    rintro w s s' ⟨hs, hbeside⟩
    obtain ⟨w', hle, hs'⟩ := K.release hs
    exact ⟨w', hle, hs', hbeside.map State.silent_releaseFrame (K.marked_mono hle)⟩

theorem storageLaws : I.toSimulation.StorageLaws where
  fields i := by
    rintro ⟨_, o, rfl, _⟩
    rfl
  addObject cls := by
    rintro ⟨hs, o, rfl, ho⟩ rfl
    exact ⟨K.addObject _ hs, o, rfl, ho⟩
  callable i := by
    rintro ⟨hs, o, rfl, ho⟩ hcalls
    exact sameCallable fun f h => K.callable hs hcalls h
  addCallable := by
    rintro w s _ k k' ⟨hs, o, rfl, ho⟩ hk hcode
    cases eq_of_sameCallable hk
    exact ⟨K.addCallable hs hcode, o, rfl, ho⟩
  addCoroutine name body := by
    rintro ⟨hs, o, rfl, ho⟩ rfl rfl hargs
    exact ⟨K.addCoroutine _ hs rfl rfl hargs, o, rfl, ho⟩
  start i := by
    rintro ⟨_, o, rfl, _⟩
    exact ⟨rfl, rfl, rfl, rfl⟩

theorem catalogLaws : I.toSimulation.CatalogLaws where
  id := by
    rintro w s _ ⟨_, o, rfl, _⟩
    rfl
  catalog := by
    rintro w s _ ⟨_, o, rfl, _⟩
    rfl
  allows h hcalls hf := K.allows h.1 hcalls hf
  addFunction := by
    rintro w s _ f ⟨hs, o, rfl, ho⟩ hf
    exact ⟨K.addFunction hs hf, o, rfl, ho⟩
  classes := by
    rintro w s _ ⟨_, o, rfl, _⟩
    rfl
  withClasses classes := by
    rintro ⟨hs, o, rfl, ho⟩
    exact ⟨K.withClasses classes hs, o, rfl, ho⟩
  sites := by
    rintro w s _ ⟨_, o, rfl, _⟩
    rfl
  reserve n := by
    rintro ⟨hs, o, rfl, ho⟩
    exact ⟨K.reserve n hs, o, rfl, ho⟩
  remember site slot := by
    rintro ⟨hs, o, rfl, ho⟩ h
    exact ⟨K.remember site slot hs h, o, rfl, ho⟩
  parser := by
    rintro w s _ ⟨_, o, rfl, _⟩
    rfl
  parsed n h ht hp he := K.parsed n h.1 ht hp he

theorem sessionLaws : I.toSimulation.SessionLaws where
  withOutput f := by
    rintro ⟨hs, o, rfl, ho⟩
    exact ⟨K.withOutput _ hs, f o, rfl, ho.imp_right (congrArg f)⟩
  withCancellation f := by
    rintro ⟨hs, o, rfl, ho⟩
    exact ⟨K.withCancellation _ hs, o, rfl, ho⟩
  countFunctionCall := by
    rintro w s _ ⟨hs, o, rfl, ho⟩
    exact ⟨K.withMeter _ hs, o, rfl, ho⟩
  countMethodCall := by
    rintro w s _ ⟨hs, o, rfl, ho⟩
    exact ⟨K.withMeter _ hs, o, rfl, ho⟩
  resetMeter := by
    rintro w s _ ⟨hs, o, rfl, ho⟩
    exact ⟨K.withMeter _ hs, o, rfl, ho⟩
  enterNode {w} ev ev' := by
    rintro s _ ⟨hs, o, rfl, ho⟩
    have hmarked : (s.withOutput o).session.cancellation = s.session.cancellation := rfl
    have hmeter : (s.withOutput o).session.meter = s.session.meter := rfl
    rw [enterNode_apply, enterNode_apply, hmarked, hmeter]
    split
    · exact .signal (.error _ (K.le_refl w)) ⟨hs, o, rfl, ho⟩
    · rcases s.session.meter.step with ⟨e | _, m⟩
      · exact .signal (.error e (K.le_refl w)) ⟨K.withMeter m hs, o, rfl, ho⟩
      · exact .value (K.le_refl w) ⟨K.withMeter m.countNode hs, o, rfl, ho⟩ rfl

theorem wayLaws : I.toSimulation.WayLaws where
  nextFrame := by
    rintro w s _ ⟨hs, o, rfl, ho⟩ htakes
    cases hresume : s.session.resume with
    | nil => exact Or.inl ⟨rfl, hresume⟩
    | cons f rest =>
      obtain ⟨w', hle, hrest⟩ := K.nextFrame hs htakes hresume
      refine Or.inr ⟨f, f, rest, rest, w', rfl, hresume, hle, sameFrame w' f, hrest, o, rfl, ?_⟩
      exact ho.imp_left (K.marked_mono hle)
  forget := by
    rintro w s _ ⟨hs, o, rfl, ho⟩ hfits
    obtain ⟨w', hle, hs'⟩ := K.forget hs hfits
    exact ⟨w', hle, hs', o, rfl, ho.imp_left (K.marked_mono hle)⟩
  way_yield h := ⟨rfl, K.way_yield h⟩
  way_cons := by
    rintro w f f' fs _ hstage hf hne ⟨rfl, hway⟩
    cases eq_of_sameFrame hf
    exact ⟨rfl, K.way_cons hstage hne hway⟩

/-- A live call of a name is made on both sides, or on none. -/
theorem callLaw {ev ev' : Evaluator} {w : I.World} (name : String) {x y : Exec Value}
    (h : ∀ w₁, I.toSimulation.Inside w w₁ → I.toSimulation.Agrees ev ev' w₁ x y) :
    I.toSimulation.Agrees ev ev' w (asCall name x) (asCall name y) := by
  rintro s _ ⟨hs, o, rfl, ho⟩
  rw [asCall_apply, asCall_apply,
    show (s.withOutput o).session.calls.push name = s.session.calls.push name from rfl]
  cases hcalls : s.session.calls.push name with
  | error e => exact .signal (.error _ (K.le_refl w)) ⟨hs, o, rfl, ho⟩
  | ok calls =>
    obtain ⟨w₁, hinside, hbegins, hpasses⟩ := K.call hs hcalls
    have hends := h w₁ hinside _ _ (hbegins.rel ⟨o, rfl, ho⟩)
    change I.toSimulation.Ends w₁ _ _ (y ev' ((s.withOutput o).withCalls calls)) at hends
    dsimp only
    generalize x ev (s.withCalls calls) = p at hends ⊢
    generalize y ev' ((s.withOutput o).withCalls calls) = q at hends ⊢
    have hback : State.Silent fun t => t.withCalls t.session.calls.pop := fun _ _ => rfl
    have hpassed := hpasses.ends hback hends
    cases hends with
    | value _ _ _ | halted _ _ _ => exact hpassed
    | stopped t r hlax => exact .stopped _ _ hlax
    | @signal w₂ g g' t t' _ ht =>
      -- the two sides are given the same backtrace
      obtain ⟨out, rfl, _⟩ := ht.2
      exact hpassed.onErrors t.session.calls.attach

theorem boundaryLaws : I.toSimulation.BoundaryLaws where
  call := K.callLaw
  barrier := by
    rintro ev ev' w x y h s _ ⟨hs, o, rfl, ho⟩
    obtain ⟨w₁, henter, hbegins, hreturns⟩ := K.barrier hs
    have hends := h w₁ henter trivial _ _ (hbegins.rel ⟨o, rfl, ho⟩)
    refine hreturns.ends_settled (fun t out => ?_) hends
    show (leaveFrame (t.withOutput out)).withResume _ = _
    rw [State.silent_leaveFrame]
    rfl
  callScope := by
    rintro ev ev' w function x y hcalls h s _ ⟨hs, o, rfl, ho⟩
    obtain ⟨c, t, hacquire, hacquire', hout⟩ := State.acquireScope_withOutput function s
    obtain ⟨w₁, henter, hbegins, hreturns⟩ := K.callScope hs hcalls hacquire
    rw [bind_apply, bind_apply, hacquire, hacquire']
    refine hreturns.ends_settled State.silent_leaveFrame ?_
    exact h w₁ c c henter rfl _ _ (hbegins.rel ⟨o, rfl, ho.imp_right fun h => h.trans hout.symm⟩)
  aside := by
    rintro ev ev' w x y hcalls h s _ ⟨hs, o, rfl, ho⟩
    obtain ⟨w₁, hfits, hbegins, hpasses⟩ := K.aside hs hcalls
    have hends := h w₁ (fun _ _ hc => hc) hfits _ _ (hbegins.rel ⟨o, rfl, ho⟩)
    rw [withResume_apply, withResume_apply]
    exact hpasses.ends (fun _ _ => rfl) hends
  resumed := by
    rintro ev ev' w s _ i frames frames' running running' ⟨hs, o, rfl, ho⟩ hbegin hbegin' h
    change (s.heap.coroutine i).begin? = _ at hbegin'
    rw [hbegin] at hbegin'
    cases hbegin'
    obtain ⟨w₁, henter, hbegins, hfinish, hsuspend⟩ := K.resumed hs hbegin
    have hends := h w₁ (s.heap.coroutine i).scope _ (s.heap.coroutine i).body henter trivial rfl _ _
      (hbegins.rel ⟨o, rfl, ho⟩)
    rw [untilYield_apply, untilYield_apply]
    exact ends_leaveCoroutine hfinish hsuspend hends

theorem lawful : I.toSimulation.Lawful where
  toOrdered := K.ordered
  toNodeLaws := K.nodeLaws
  toValueLaws := K.valueLaws
  toTypingLaws := K.typingLaws
  toScopeLaws := K.scopeLaws
  toStorageLaws := K.storageLaws
  toCatalogLaws := K.catalogLaws
  toSessionLaws := K.sessionLaws
  toWayLaws := K.wayLaws
  toBoundaryLaws := K.boundaryLaws

/-- The evaluator keeps an invariant. -/
theorem ready (n : Nat) : I.toSimulation.Ready (evaluator n) (evaluator n) :=
  Simulation.ready_evaluator K.lawful (fun h => h) n

end Upheld

/-! ### Whole runs -/

/-- What is evaluated beside itself ends alike, and keeps the invariant. -/
theorem of_ends {α : Type} {w : I.World} {p q : Outcome α × State}
    (h : I.toSimulation.Ends w (fun _ a b => a = b) p q) :
    (I.lax ∧ p.1 = .halted .outOfFuel) ∨
      p.1 = q.1 ∧ ∃ w', I.le w w' ∧ I.toSimulation.rel w' p.2 q.2 ∧
        ∀ v fs, p.1 = .signal (.yieldValue v fs) → I.way w' fs := by
  cases h with
  | value hle hrel hab =>
    cases hab
    exact Or.inr ⟨rfl, _, hle, hrel, nofun⟩
  | signal hg hrel =>
    right
    cases hg with
    | yieldValue v hle hfs =>
      obtain ⟨rfl, hfs⟩ := hfs
      refine ⟨rfl, _, hle, hrel, fun _ _ h => ?_⟩
      cases h
      exact hfs
    | breakLoop v hle | continueLoop hle | returnValue v hle | throwValue v hle | error e hle =>
      exact ⟨rfl, _, hle, hrel, nofun⟩
  | halted k hle hrel => exact Or.inr ⟨rfl, _, hle, hrel, nofun⟩
  | stopped t r hlax => exact Or.inl ⟨hlax, rfl⟩

/-- Without marks it is the same run. -/
theorem eq_of_ends {α : Type} (hmarked : ∀ w, ¬ I.marked w) {w : I.World}
    {p q : Outcome α × State} (h : I.toSimulation.Ends w (fun _ a b => a = b) p q) :
    (I.lax ∧ p.1 = .halted .outOfFuel) ∨
      p = q ∧ ∃ w', I.le w w' ∧ I.holds w' p.2 ∧
        ∀ v fs, p.1 = .signal (.yieldValue v fs) → I.way w' fs := by
  rcases of_ends h with hlax | ⟨houtcome, w', hle, hrel, hway⟩
  · exact Or.inl hlax
  · have hstate := hrel.2.eq (hmarked w')
    exact Or.inr ⟨Prod.ext houtcome hstate, w', hle, hrel.1, hway⟩

end Invariant
end TreeScript
