import TreeScript.Proofs.Simulation.Invariant

/-
# Invariants of a view

Many invariants look at little: the way back, the call sites, the catalog, the parser, the callables
and the coroutines, which make up the `View` of a state.  Whatever else an evaluation does does not show
in the view, and so an invariant of the view need only be kept by the operations on it
(`Invariant.Kept`).
-/

namespace TreeScript

open Exec

/-- What invariants look at. -/
structure View where
  resume : List ResumeFrame
  sites : CallSites
  id : Nat
  catalog : Catalog
  parser? : Option ExpressionParser
  callables : Array Callable
  coroutines : Array Coroutine

/-- The view of a state. -/
def State.view (s : State) : View :=
  ⟨s.session.resume, s.sites, s.session.id, s.session.catalog, s.session.parser?, s.heap.callables,
    s.heap.coroutines⟩

namespace Invariant

variable (I : Invariant)

/-- The operations on the view keep an invariant that knows nothing of types. -/
structure Kept : Prop extends I.Worlds, I.Untyped where
  congr : ∀ {w s t}, I.holds w s → s.view = t.view → I.holds w t
  callable : ∀ {w s i f}, I.holds w s → I.Permits w Node.isCall →
    s.heap.callable i = .function f → I.Allows w f
  addCallable : ∀ {w s k}, I.holds w s → (∀ f, k ≠ .function f) →
    I.holds w (s.withHeap (s.heap.newCallable k).2)
  addCoroutine : ∀ {w s} (c : Coroutine), I.holds w s → c.state = .created → c.frames = [] →
    I.holds w (s.withHeap { s.heap with coroutines := s.heap.coroutines.push c })
  allows : ∀ {w s slot f}, I.holds w s → I.Permits w Node.isCall →
    s.session.catalog.get? slot = some f → I.Allows w f
  addFunction : ∀ {w s f}, I.holds w s → f.isNative = false →
    I.holds w (s.withSession (s.session.addFunction f))
  reserve : ∀ {w s} (n), I.holds w s → I.holds w (s.withSites (s.sites.reserve n))
  remember : ∀ {w s} (site slot), I.holds w s →
    ((s.sites.get? site s.session.id).bind s.session.catalog.get?) = none →
    I.holds w (s.withSites (s.sites.set site s.session.id slot))
  parsed : ∀ {w s parse template e} (n), I.holds w s → I.fits w (.template template) →
    s.session.parser? = some parse → Template.Expression parse template e →
    I.fits w (e.numbered n).1
  nextFrame : ∀ {w s f rest}, I.holds w s → I.Permits w Node.takesFrame →
    s.session.resume = f :: rest → ∃ w', I.le w w' ∧ I.holds w' (s.withResume rest)
  forget : ∀ {w s}, I.holds w s → (∀ e, I.fits w e) →
    ∃ w', I.le w w' ∧ I.holds w' (s.withResume [])
  way_yield : ∀ {w e}, I.fits w (.yieldWith e) → I.way w [.atYield]
  way_cons : ∀ {w f fs}, I.Permits w Node.isStatement → f ≠ .atYield → I.way w fs →
    I.way w (f :: fs)
  barrier : ∀ {w s}, I.holds w s → ∃ w₁, I.enters w w₁ ∧ I.Begins w w₁ (s.withResume []) ∧
    I.Returns w w₁ (·.withResume s.session.resume)
  callScope : ∀ {w s}, I.holds w s → I.Permits w Node.isCall →
    ∃ w₁, I.enters w w₁ ∧ I.Begins w w₁ s ∧ I.Returns w w₁ id
  /-- What native code does for a body, it does as the body. -/
  aside : ∀ {w s}, I.holds w s → I.Permits w Node.isCall →
    ∃ w₁, (∀ e, I.fits w e → I.fits w₁ e) ∧ I.Begins w w₁ (s.withResume []) ∧
      I.Passes w w₁ (·.withResume s.session.resume)
  resumed : ∀ {w s i frames running}, I.holds w s →
    (s.heap.coroutine i).begin? = .ok (some (frames, running)) →
    ∃ w₁, I.enters w w₁ ∧
      I.Begins w w₁ ((s.withHeap (s.heap.setCoroutine i running)).withResume frames) ∧
      (I.Returns w w₁ fun t => finishCoroutine i (t.withResume s.session.resume)) ∧
      ∀ w₂ t fs, I.le w₁ w₂ → I.holds w₂ t → I.way w₂ fs →
        ∃ w₃, I.le w w₃ ∧
          I.holds w₃ (suspendCoroutine i fs (t.withResume s.session.resume)) ∧
          (I.marked w₂ → I.marked w₃)

/-! ## What does not show in the view -/

theorem view_leaveFrame (s : State) : (leaveFrame s).view = s.view := by
  unfold leaveFrame Session.popFrame Session.leave
  split
  · split <;> rfl
  · rfl

theorem view_acquireScope {function : Option Nat} {s t : State} {c : Nat} {ev : Evaluator}
    (h : acquireScope function ev s = (.value c, t)) : t.view = s.view := by
  obtain ⟨_, _, _, rfl, hheap⟩ := acquireScope_state h
  rcases hheap with rfl | rfl <;> rfl

theorem view_unbind (s : State) (c : Nat) (x : String) :
    (s.withHeap (s.heap.unbind c x).2).view = s.view := by
  unfold Heap.unbind
  split <;> rfl

theorem view_releaseFrame (s : State) : (s.withSession s.session.releaseFrame).view = s.view := by
  unfold Session.releaseFrame
  split <;> rfl

theorem view_retainFrame (s : State) : (s.withSession s.session.retainFrame).view = s.view := by
  unfold Session.retainFrame
  split <;> rfl

namespace Kept

variable {I : Invariant} (K : I.Kept) {w w₁ : I.World} {s : State}
include K

theorem operations : I.Operations where
  withStores hs _ := K.congr hs rfl
  setValue hs _ _ _ := K.congr hs rfl
  withHeld _ hs := K.congr hs rfl
  newScope _ hs := K.congr hs rfl
  declareSlot _ _ _ hs _ := K.congr hs rfl
  unbind _ _ hs := K.congr hs (view_unbind _ _ _).symm
  retain hs := ⟨_, K.le_refl _, K.congr hs (view_retainFrame _).symm⟩
  release hs := ⟨_, K.le_refl _, K.congr hs (view_releaseFrame _).symm⟩
  addObject _ hs := K.congr hs rfl
  callable := K.callable
  addCallable := K.addCallable
  addCoroutine c hs hstate hframes _ := K.addCoroutine c hs hstate hframes
  allows := K.allows
  addFunction := K.addFunction
  withClasses _ hs := K.congr hs rfl
  reserve := K.reserve
  remember := K.remember
  parsed := K.parsed
  withMeter _ hs := K.congr hs rfl
  withOutput _ hs := K.congr hs rfl
  withCancellation _ hs := K.congr hs rfl
  nextFrame := K.nextFrame
  forget := K.forget
  way_yield := K.way_yield
  way_cons := K.way_cons

/-- What begins in a state begins in one with the same view. -/
theorem begins {t : State} (h : I.Begins w w₁ s) (hview : t.view = s.view) : I.Begins w w₁ t :=
  ⟨K.congr h.1 hview.symm, h.2⟩

/-- Taking a frame away does not show in the view. -/
theorem returns {back : State → State} (h : I.Returns w w₁ back) :
    I.Returns w w₁ fun t => back (leaveFrame t) :=
  fun w₂ t hle ht => h w₂ (leaveFrame t) hle (K.congr ht (view_leaveFrame t).symm)

theorem boundaries : I.Boundaries where
  call {w s name calls} hs _ := by
    refine ⟨w, ⟨fun h => h, fun h => h, fun h => h⟩, ⟨K.congr hs rfl, fun h => h⟩, ?_⟩
    exact fun w₂ t hle ht => ⟨w₂, hle, K.congr ht rfl, fun h => h, fun _ h => h⟩
  barrier hs := by
    obtain ⟨w₁, henter, hbegins, hreturns⟩ := K.barrier hs
    exact ⟨w₁, henter, K.begins hbegins rfl, K.returns hreturns⟩
  callScope {w s function c t} hs hcalls hacquire := by
    have hview := view_acquireScope (hacquire (.untraced 0 fun _ _ s => (.halted .outOfFuel, s)))
    obtain ⟨w₁, henter, hbegins, hreturns⟩ := K.callScope hs hcalls
    exact ⟨w₁, henter, K.begins hbegins hview, K.returns hreturns⟩
  aside := K.aside
  resumed {w s i frames running} hs hbegin := by
    obtain ⟨w₁, henter, hbegins, hfinish, hsuspend⟩ := K.resumed hs hbegin
    refine ⟨w₁, henter, K.begins hbegins rfl, K.returns hfinish, fun w₂ t fs hle ht hway => ?_⟩
    exact hsuspend w₂ (leaveFrame t) fs hle (K.congr ht (view_leaveFrame t).symm) hway

theorem upheld : I.Upheld where
  toWorlds := K.toWorlds
  toTypes := K.toUntyped.types K.le_refl
  toOperations := K.operations
  toBoundaries := K.boundaries

theorem lawful : I.toSimulation.Lawful := K.upheld.lawful

end Kept

/-! ## Properties of call sites and the catalog -/

/-- A property of the call sites and the catalog of a session, whose number stays. -/
def ofSites (holds : CallSites → Nat → Catalog → Prop) (lax marked : Prop) : Invariant where
  World := Unit
  le _ _ := True
  holds _ s := holds s.sites s.session.id s.session.catalog
  way _ _ := True
  fits _ _ := True
  enters _ _ := True
  marked _ := marked
  lax := lax

/-- A property that holds on when functions are added, when cells are made, and when a site that
remembers nothing in the session resolves. -/
structure SitesKept (holds : CallSites → Nat → Catalog → Prop) : Prop where
  add : ∀ {sites id c} (f : Function), holds sites id c → holds sites id (c.add f).2
  reserve : ∀ {sites id c} (n : Nat), holds sites id c → holds (sites.reserve n) id c
  remember : ∀ {sites id c} (site slot : Nat), holds sites id c →
    (sites.get? site id).bind c.get? = none → holds (sites.set site id slot) id c

theorem SitesKept.kept {holds : CallSites → Nat → Catalog → Prop} (h : SitesKept holds)
    (lax marked : Prop) : (ofSites holds lax marked).Kept where
  le_refl _ := trivial
  le_trans _ _ := trivial
  way_mono _ _ := trivial
  fits_mono _ _ := trivial
  marked_mono _ hmarked := hmarked
  fits_part _ _ := trivial
  enters_fits _ _ := trivial
  suits _ _ _ := trivial
  typed _ _ _ := trivial
  writable _ _ := trivial
  congr := by
    intro w s t hs hview
    simp only [State.view, View.mk.injEq] at hview
    obtain ⟨_, hsites, hid, hcatalog, _⟩ := hview
    show holds t.sites t.session.id t.session.catalog
    rw [← hsites, ← hid, ← hcatalog]
    exact hs
  callable _ _ _ := fun _ _ _ _ => trivial
  addCallable hs _ := hs
  addCoroutine _ hs _ _ := hs
  allows _ _ _ := fun _ _ _ _ => trivial
  addFunction hs _ := h.add _ hs
  reserve n hs := h.reserve n hs
  remember site slot hs hnone := h.remember site slot hs hnone
  parsed _ _ _ _ _ := trivial
  nextFrame hs _ _ := ⟨(), trivial, hs⟩
  forget hs _ := ⟨(), trivial, hs⟩
  way_yield _ := trivial
  way_cons _ _ _ := trivial
  barrier hs := ⟨(), trivial, ⟨hs, id⟩, fun _ _ _ ht => ⟨(), trivial, ht, id⟩⟩
  callScope hs _ := ⟨(), trivial, ⟨hs, id⟩, fun _ _ _ ht => ⟨(), trivial, ht, id⟩⟩
  aside hs _ :=
    ⟨(), fun _ _ => trivial, ⟨hs, id⟩, fun _ _ _ ht => ⟨(), trivial, ht, id, fun _ _ => trivial⟩⟩
  resumed hs _ := ⟨(), trivial, ⟨hs, id⟩, fun _ _ _ ht => ⟨(), trivial, ht, id⟩,
    fun _ _ _ _ ht _ => ⟨(), trivial, ht, id⟩⟩

end Invariant
end TreeScript
