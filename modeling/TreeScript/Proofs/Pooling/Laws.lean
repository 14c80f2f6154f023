import TreeScript.Proofs.Pooling.Relation

/-
# Evaluation with and without a pool, side by side

The relation of the two sides is kept by all operations on states, so that every construct of the
language is evaluated alike.  A call is where the two sides differ: the left one takes an idle scope
if there is one, and gives it back at the end.
-/

namespace TreeScript
namespace Pooling

open Exec

variable (reserved : Nat → Nat → Prop)

/-- A run that uses scopes again beside one that does not. -/
def simulation : Simulation where
  World := World
  le := World.Le
  unwound := World.Unwound
  rel := Rel reserved
  scope := World.Scope
  pinned := World.Pinned
  way w := List.Forall₂ (ResumeFrame.Alike w.Scope)
  fits _ _ := True
  enters w w₁ := ∀ c c', w.Pinned c c' → w₁.Pinned c c'
  closed w := w.own? = none
  suits _ _ _ := True
  typed _ _ _ := True
  writable _ _ := True
  lax := True

variable {reserved} {w w' : World} {s s' : State}

/-! ## Worlds, nodes and values -/

theorem ordered : (simulation reserved).Ordered where
  le_refl := World.Le.refl
  le_trans := World.Le.trans
  unwound_of_le := World.Le.unwound
  unwound_trans := World.Unwound.trans
  scope_of_pinned := World.Safe.scope
  scope_mono := World.Le.scope
  pinned_mono := World.Unwound.pinned
  way_mono hle hfs := hfs.imp fun _ _ => ResumeFrame.Alike.mono hle.scope
  fits_mono _ _ := trivial
  closed_mono := by
    intro w w' hle hown
    show w'.own? = none
    rw [Option.eq_none_iff_forall_not_mem]
    intro a ha
    have := hle.frames.owned? ha
    rw [show w.frames.head?.bind Frame.owned? = none from hown] at this
    cases this
  le_of_closed hown h := h.le_of_own? hown

theorem nodeLaws : (simulation reserved).NodeLaws where
  fits_part _ _ := trivial
  enters_fits _ _ := trivial
  enters_pinned h hc := h _ _ hc

theorem valueLaws : (simulation reserved).ValueLaws where
  alike hs := hs.alike
  withStores {_ _ _ st} hs _ := { hs with alike := hs.alike.withStores st }
  setValue hs _ _ _ := { hs with alike := hs.alike.setValue _ _ }
  held := Rel.held
  withHeld _ hs := { hs with held := rfl }

theorem typingLaws : (simulation reserved).TypingLaws :=
  Simulation.typingLaws_of_all World.Le.refl (fun _ _ _ => trivial) (fun _ _ _ => trivial)
    fun _ _ => trivial

/-! ## Scopes -/

/-- The right side makes a new scope, and the left side one that stands for it. -/
theorem Rel.push (hs : Rel reserved w s s') {c : Nat} {around : List Nat}
    {left right : Array TreeScript.Scope} (hscopes : Scopes (w.push c around) left right) {pool : Pool}
    (hpooled : Pooled reserved (w.push c around) left s.session.root pool) {m m' : Meter}
    (hm : m.unpooled = m'.unpooled) :
    Rel reserved (w.push c around)
      ((s.withSession { s.session with pool := pool, meter := m }).withHeap
        { s.heap with scopes := left })
      ((s'.withMeter m').withHeap { s'.heap with scopes := right }) := by
  have hle := w.le_push c around
  have hrel := hs.change (w.push c around) hscopes hle.unwound.pinned
    (fun a ha => if_neg (Nat.ne_of_lt ha))
    (fun f hf a ha => Nat.lt_succ_of_lt (hs.known f hf a ha))
    (fun f hf a ha => by
      have hne := Nat.ne_of_lt (hs.known f hf a (Frame.scope?_of_kept? ha))
      obtain ⟨hlive, haround⟩ := hs.kept f hf a ha
      exact ⟨fun hd => hlive hd.2, (if_neg hne).trans haround⟩)
    hs.distinct hpooled hm
  have hframes : (w.push c around).frames.map (Frame.rename (w.push c around).image) =
      s.session.frames := by
    rw [hs.frames]
    exact List.map_congr_left fun f hf =>
      Frame.rename_congr fun a ha => if_neg (Nat.ne_of_lt (hs.known f hf a ha))
  have hframes' : (w.push c around).frames = s'.session.frames := hs.frames'.symm
  rw [hframes, hframes', ← hs.pool'] at hrel
  exact hrel

/-- A new scope inside one that may be used may be used. -/
theorem safe_push {avoid : Nat → Prop} {d d' c : Nat} (h : w.Safe avoid d d')
    (havoid : ¬ avoid w.size) : (w.push c (w.chain d')).Safe avoid c w.size := by
  have hchain : (w.push c (w.chain d')).chain w.size = w.size :: w.chain d' :=
    congrArg (w.size :: ·) (if_pos rfl)
  refine ⟨if_pos rfl, ?_, ?_, ?_⟩ <;> rw [hchain] <;> intro a ha <;>
    rcases List.mem_cons.mp ha with rfl | ha
  · exact Nat.lt_succ_self _
  · exact Nat.lt_succ_of_lt (h.known a ha)
  · exact fun hd => hd.1 rfl
  · exact fun hd => h.live a ha hd.2
  · exact havoid
  · exact h.clear a ha

theorem Rel.not_owned_size (hs : Rel reserved w s s') : ¬ w.Owned w.size :=
  fun h => Nat.lt_irrefl _ (hs.of_owned h).1

/-- What a new scope is on the two sides. -/
theorem Rel.newScope_eq (hs : Rel reserved w s s') {avoid : Nat → Prop} {c c' : Nat}
    (hc : w.Safe avoid c c') :
    (s.heap.newScope c).2 =
        { s.heap with scopes := s.heap.scopes.push ⟨.empty, (w.chain c').map w.image⟩ } ∧
      (s'.heap.newScope c').2 =
        { s'.heap with scopes := s'.heap.scopes.push ⟨.empty, w.chain c'⟩ } := by
  obtain ⟨hchain, hchain'⟩ := hs.scopes.chain hc
  rw [← hchain, ← hchain']
  exact ⟨rfl, rfl⟩

theorem Rel.pooledNew (hs : Rel reserved w s s') (around : List Nat) (scope : TreeScript.Scope) :
    Pooled reserved (w.push s.heap.scopes.size around) (s.heap.scopes.push scope) s.session.root
      s.session.pool := by
  refine hs.pooled.congr fun {r d} hidle => hidle.push _ (Nat.ne_of_gt hidle.lt) ?_ ?_
  · rw [Array.size_push]
    exact Nat.le_succ _
  · exact fun a ha => by rw [getD_push_lt _ _ ha]

/-- Both sides make a new scope. -/
theorem Rel.newScope (hs : Rel reserved w s s') {avoid : Nat → Prop} {c c' : Nat}
    (hc : w.Safe avoid c c') :
    Rel reserved (w.push s.heap.scopes.size (w.chain c'))
      (s.withHeap (s.heap.newScope c).2) (s'.withHeap (s'.heap.newScope c').2) := by
  obtain ⟨hleft, hright⟩ := hs.newScope_eq hc
  rw [hleft, hright]
  exact hs.push (hs.scopes.pushNew hc.known) (hs.pooledNew _ _) hs.meter

theorem Rel.modifyScope (hs : Rel reserved w s s') {avoid : Nat → Prop} {c c' : Nat}
    (hc : w.Safe avoid c c') (f : Table String Nat → Table String Nat) :
    Rel reserved w
      (s.withHeap { s.heap with scopes := s.heap.scopes.modify c (rebind f) })
      (s'.withHeap { s'.heap with scopes := s'.heap.scopes.modify c' (rebind f) }) := by
  have hscopes := hs.scopes.modify hc.lt hc.not_dead f
  rw [hc.image] at hscopes
  exact { hs with
    alike := hs.alike.withScopes _ _
    scopes := hscopes
    pooled := hs.pooled.congr fun h => h.modify c f }

theorem Rel.unbind (hs : Rel reserved w s s') {avoid : Nat → Prop} {c c' : Nat}
    (hc : w.Safe avoid c c') (x : String) :
    Rel reserved w (s.withHeap (s.heap.unbind c x).2) (s'.withHeap (s'.heap.unbind c' x).2) := by
  have hfind := hs.scopes.find? hc x
  unfold Heap.unbind
  rw [hfind]
  cases hfound : (s'.heap.chain c').find? fun a => (s'.heap.lookupLocal a x).isSome with
  | none => exact hs
  | some a =>
    have hmem := List.mem_of_find?_eq_some hfound
    rw [(hs.scopes.chain hc).2] at hmem
    -- the scope that binds the name is one of those around
    have hscopes := hs.scopes.modify (hc.known a hmem) (hc.live a hmem) fun t => t.erase x
    exact { hs with
      alike := hs.alike.withScopes _ _
      scopes := hscopes
      pooled := hs.pooled.congr fun h => h.modify (w.image a) fun t => t.erase x }

theorem scopeLaws : (simulation reserved).ScopeLaws where
  lookup x hs hc := hs.scopes.lookup hc x
  lookupLocal x hs hc := hs.scopes.lookupLocal hc x
  newScope := by
    intro w s s' c c' hs hc
    have hsize : s'.heap.scopes.size = w.size := hs.scopes.size
    refine ⟨_, w.le_push s.heap.scopes.size (w.chain c'), ?_, fun hp => ?_, hs.newScope hc⟩
    · rw [hsize]
      exact safe_push hc fun h => hs.not_owned_size h.owned
    · rw [hsize]
      exact safe_push hp hs.not_owned_size
  declareSlot {w s s' c c'} x slot hs hc _ := by
    have hsize : s'.heap.slots.size = s.heap.slots.size := congrArg Array.size hs.alike.slots.symm
    have hslot : Rel reserved w (s.withHeap (s.heap.newSlot slot).2)
        (s'.withHeap (s'.heap.newSlot slot).2) := { hs with alike := hs.alike.newSlot slot }
    show Rel reserved w (s.withHeap ((s.heap.newSlot slot).2.bind c x s.heap.slots.size))
      (s'.withHeap ((s'.heap.newSlot slot).2.bind c' x s'.heap.slots.size))
    rw [hsize]
    exact hslot.modifyScope hc fun t => t.insert x s.heap.slots.size
  unbind x hs hc := hs.unbind hc x
  root := Rel.root
  retain := Rel.retain
  release := Rel.releaseFrame

/-! ## Storage -/

theorem storageLaws : (simulation reserved).StorageLaws where
  fields i hs := Rel.fields hs i
  addObject cls hs hc :=
    { hs with
      alike := { hs.alike with
        classOf := getD_push_eq (f := Instance.cls) hs.alike.objectCount hs.alike.classOf rfl
        objectCount := by
          show (Array.push _ _).size = (Array.push _ _).size
          rw [Array.size_push, Array.size_push, hs.alike.objectCount] }
      objects := forall_lt_push (R := fun o o' : Instance => World.Pinned _ o.fields o'.fields)
        hs.alike.objectCount hs.objects hc }
  callable i hs _ := Callable.Alike.mono (fun _ _ _ _ _ => trivial) (fun h => h) (Rel.callable hs i)
  addCallable hs hk _ :=
    { hs with
      alike := { hs.alike with
        callableCount := by
          show (Array.push _ _).size = (Array.push _ _).size
          rw [Array.size_push, Array.size_push, hs.alike.callableCount] }
      callables := forall_lt_push hs.alike.callableCount hs.callables
        (Callable.Alike.mono (fun _ => trivial) (fun h => h) hk) }
  addCoroutine name body hs ho hc _ :=
    { hs with
      alike := { hs.alike with
        coroutineCount := by
          show (Array.push _ _).size = (Array.push _ _).size
          rw [Array.size_push, Array.size_push, hs.alike.coroutineCount]
        coroutineState := getD_push_eq (f := Coroutine.state) hs.alike.coroutineCount
          hs.alike.coroutineState rfl
        coroutineName := getD_push_eq (f := Coroutine.name) hs.alike.coroutineCount
          hs.alike.coroutineName rfl }
      coroutines := forall_lt_push hs.alike.coroutineCount hs.coroutines
        ⟨rfl, rfl, rfl, ho, hc, .nil⟩ }
  start i hs :=
    have h := Rel.coroutine hs i
    ⟨h.params, h.args, h.body, h.origin⟩

/-! ## Sessions -/

theorem catalogLaws : (simulation reserved).CatalogLaws where
  id := Rel.id
  catalog := Rel.catalog
  allows _ _ _ := fun _ _ _ _ => trivial
  addFunction {w s s' f} hs _ :=
    { hs with
      catalog := by
        show (s.session.catalog.add f).2 = (s'.session.catalog.add f).2
        rw [Rel.catalog hs] }
  classes := Rel.classes
  withClasses _ hs := { hs with classes := rfl }
  sites := Rel.sites
  reserve {w s s'} n hs :=
    { hs with
      sites := by
        show s.sites.reserve n = s'.sites.reserve n
        rw [Rel.sites hs] }
  remember {w s s'} site slot hs _ :=
    { hs with
      sites := by
        show s.sites.set site s.session.id slot = s'.sites.set site s'.session.id slot
        rw [Rel.sites hs, Rel.id hs] }
  parser := Rel.parser
  parsed _ _ _ _ _ := trivial

/-- What is counted beside the pool is counted alike. -/
theorem unpooled_count {m m' : Meter} (h : m.unpooled = m'.unpooled) {f : Counters → Counters}
    (hf : ∀ c, { f c with poolHits := 0, poolMisses := 0 } =
      f { c with poolHits := 0, poolMisses := 0 }) :
    (m.count f).unpooled = (m'.count f).unpooled := by
  have hcount : ∀ m : Meter, (m.count f).unpooled = m.unpooled.count f := by
    intro m
    unfold Meter.unpooled Meter.count
    cases m.counters with
    | none => rfl
    | some c =>
      simp only [Option.map_some]
      rw [hf]
  rw [hcount, hcount, h]

theorem unpooled_countPool (m : Meter) (hit : Bool) : (m.countPool hit).unpooled = m.unpooled := by
  unfold Meter.countPool Meter.unpooled Meter.count
  cases m.counters with
  | none => rfl
  | some c => cases hit <;> rfl

/-- A step is taken alike. -/
theorem unpooled_step {m m' : Meter} (h : m.unpooled = m'.unpooled) :
    m.step.1 = m'.step.1 ∧ m.step.2.unpooled = m'.step.2.unpooled := by
  obtain ⟨steps, budget, counters⟩ := m
  obtain ⟨steps', budget', counters'⟩ := m'
  simp only [Meter.unpooled, Meter.count, Meter.mk.injEq] at h
  obtain ⟨rfl, rfl, hcounters⟩ := h
  unfold Meter.unpooled Meter.count Meter.step
  cases budget <;> exact ⟨rfl, by simp only [hcounters]⟩

theorem Rel.withMeter (hs : Rel reserved w s s') {m m' : Meter} (h : m.unpooled = m'.unpooled) :
    Rel reserved w (s.withMeter m) (s'.withMeter m') :=
  { hs with meter := h }

theorem sessionLaws : (simulation reserved).SessionLaws where
  withOutput f hs := { hs with output := congrArg f (Rel.output hs) }
  withCancellation f hs := { hs with cancellation := congrArg f (Rel.cancellation hs) }
  countFunctionCall hs := hs.withMeter (unpooled_count (Rel.meter hs) fun _ => rfl)
  countMethodCall hs := hs.withMeter (unpooled_count (Rel.meter hs) fun _ => rfl)
  resetMeter {w s s'} hs := by
    refine hs.withMeter ?_
    have h : s.session.meter.unpooled.reset = s'.session.meter.unpooled.reset :=
      congrArg Meter.reset (Rel.meter hs)
    exact h
  enterNode {w} ev ev' := by
    intro s s' hs
    have hcancel : s.session.cancellation = s'.session.cancellation := Rel.cancellation hs
    obtain ⟨hfst, hsnd⟩ := unpooled_step (Rel.meter hs)
    rw [enterNode_apply, enterNode_apply, hcancel]
    split
    · exact .signal (.error _ (World.Le.refl w).unwound) hs
    · generalize s.session.meter.step = step at hfst hsnd ⊢
      generalize s'.session.meter.step = step' at hfst hsnd ⊢
      obtain ⟨r, m⟩ := step
      obtain ⟨r', m'⟩ := step'
      dsimp only at hfst hsnd
      subst hfst
      cases r with
      | ok u =>
        exact .value (World.Le.refl w) (hs.withMeter (unpooled_count hsnd fun _ => rfl)) rfl
      | error e => exact .signal (.error e (World.Le.refl w).unwound) (hs.withMeter hsnd)

theorem wayLaws : (simulation reserved).WayLaws where
  nextFrame := by
    intro w s s' hs _
    have hresume : List.Forall₂ (ResumeFrame.Alike w.Pinned) s.session.resume s'.session.resume :=
      Rel.resume hs
    cases hr : s.session.resume with
    | nil =>
      rw [hr] at hresume
      exact Or.inl ⟨rfl, List.forall₂_nil_left_iff.mp hresume⟩
    | cons f rest =>
      rw [hr] at hresume
      obtain ⟨f', rest', hf, hrest, hr'⟩ := List.forall₂_cons_left_iff.mp hresume
      refine Or.inr ⟨f, f', rest, rest', w, rfl, hr', World.Le.refl w, ?_, { hs with resume := hrest }⟩
      exact ResumeFrame.Alike.mono World.Safe.scope hf
  forget {w s s'} hs _ := ⟨w, World.Le.refl w, { hs with resume := .nil }⟩
  way_yield _ := .cons .atYield .nil
  way_cons _ hf _ hfs := .cons hf hfs

/-! ## Boundaries -/

/-- A body begins in the second world, in a frame of its own. -/
structure Opens (w w₁ : World) (f : Frame) : Prop extends w.Extends w₁ where
  frames : w₁.frames = f :: w.frames
  dead : ∀ a < w.size, w₁.dead a → w.dead a
  /-- What the frame owns is new. -/
  fresh : ∀ a, f.owned? = some a → w.size ≤ a

/-- When a body has ended, however it did, nothing of what was known outside is dead. -/
theorem Opens.le_bury {w w₁ w₂ : World} {f : Frame} (h : Opens w w₁ f) (h₂ : w₁.Unwound w₂) :
    ∃ f₂, w₂.frames = f₂ :: w.frames ∧ w.Le (w₂.bury w.frames) := by
  have hrunning := h₂.frames
  rw [h.frames] at hrunning
  generalize hframes : w₂.frames = frames at hrunning
  cases hrunning with
  | @cons _ f₂ rest hgoes =>
    have hown : ∀ a, w₁.own? = some a → w.size ≤ a := by
      intro a ha
      unfold World.own? at ha
      rw [h.frames] at ha
      exact h.fresh a ha
    refine ⟨f₂, rfl, (h.toExtends.trans h₂.toExtends).bury _, .refl _, ?_⟩
    rintro a ha (hd | hd)
    · rcases h₂.dead a (Nat.lt_of_lt_of_le ha h.size) hd with hd | hd
      · exact h.dead a ha hd
      · exact absurd ha (Nat.not_lt_of_le (hown a hd))
    · exact absurd ha (Nat.not_lt_of_le (hown a (h₂.frames.owned? hd)))

/-- A body ends and is settled, its frame is taken away, and what it has changed is put back. -/
theorem ends_leave {w w₁ : World} {f : Frame} (h : Opens w w₁ f) {p q : Outcome Value × State}
    (back back' : State → State)
    (hback : ∀ {w₃ t t'}, w.Le w₃ → Rel reserved w₃ t t' → Rel reserved w₃ (back t) (back' t'))
    (hends : (simulation reserved).Ends w₁ (fun _ a b => a = b) p q) :
    (simulation reserved).Ends w (fun _ a b => a = b) (settled p.1, back (leaveFrame p.2))
      (settled q.1, back' (leaveFrame q.2)) := by
  have hleave : ∀ {w₂ t t'}, w₁.Unwound w₂ → Rel reserved w₂ t t' →
      ∃ w₃, w.Le w₃ ∧ Rel reserved w₃ (back (leaveFrame t)) (back' (leaveFrame t')) := by
    intro w₂ t t' h₂ hrel
    obtain ⟨f₂, hframes, hle⟩ := h.le_bury h₂
    exact ⟨_, hle, hback hle (hrel.leaveFrame hframes)⟩
  cases hends with
  | value hle hrel hab =>
    obtain ⟨w₃, hle₃, hrel₃⟩ := hleave hle.unwound hrel
    exact .value hle₃ hrel₃ hab
  | signal hg hrel =>
    obtain ⟨w₃, hle₃, hrel₃⟩ := hleave (hg.unwound ordered) hrel
    cases hg with
    | breakLoop v _ | continueLoop _ | returnValue v _ | yieldValue v _ _ =>
      exact .value hle₃ hrel₃ rfl
    | throwValue v _ => exact .signal (.throwValue v hle₃.unwound) hrel₃
    | error e _ => exact .signal (.error e hle₃.unwound) hrel₃
  | halted k hw hrel =>
    obtain ⟨w₃, hle₃, hrel₃⟩ := hleave hw hrel
    exact .halted k hle₃.unwound hrel₃
  | stopped t r hlax => exact .stopped _ _ hlax

theorem opens_barrier (w : World) : Opens w (w.enter .barrier) .barrier :=
  ⟨(World.Extends.refl w).enter _, rfl, fun _ _ h => h, fun _ h => by cases h⟩

/-- What is held may be held by a body that owns no scope. -/
theorem pinned_enter {w : World} {f : Frame} (hf : f.owned? = none) {c c' : Nat}
    (hc : w.Pinned c c') : (w.enter f).Pinned c c' := by
  refine hc.mono ((World.Extends.refl w).enter f) (fun _ _ h => h) ?_
  rintro a _ ⟨g, hg, ha⟩
  rcases List.mem_cons.mp hg with rfl | hg
  · rw [hf] at ha
    cases ha
  · exact ⟨g, hg, ha⟩

theorem Rel.enterBarrier (hs : Rel reserved w s s') :
    Rel reserved (w.enter .barrier) (s.withFrames (.barrier :: s.session.frames))
      (s'.withFrames (.barrier :: s'.session.frames)) :=
  hs.enter (pinned_enter rfl) nofun nofun

theorem Rel.withResume (hs : Rel reserved w s s') {fs fs' : List ResumeFrame}
    (hfs : List.Forall₂ (ResumeFrame.Alike w.Pinned) fs fs') :
    Rel reserved w (s.withResume fs) (s'.withResume fs') :=
  { hs with resume := hfs }

/-- The way back of the body outside is put in place again. -/
theorem Rel.backResume (hs : Rel reserved w s s') {w₃ : World} {t t' : State} (hle : w.Le w₃)
    (ht : Rel reserved w₃ t t') :
    Rel reserved w₃ (t.withResume s.session.resume) (t'.withResume s'.session.resume) :=
  { ht with resume := hs.resume.imp fun _ _ => ResumeFrame.Alike.mono hle.unwound.pinned }

theorem barrierLaw {ev ev' : Evaluator} {w : World} {x y : Exec Value}
    (h : ∀ w₁, (simulation reserved).enters w w₁ → (simulation reserved).closed w₁ →
      (simulation reserved).Agrees ev ev' w₁ x y) :
    (simulation reserved).Agrees ev ev' w (settle (withResume [] (withFrame .barrier x)))
      (settle (withResume [] (withFrame .barrier y))) := by
  intro s s' hs
  have hrel : Rel reserved w (s.withResume []) (s'.withResume []) := { hs with resume := .nil }
  have hends := h (w.enter .barrier) (fun _ _ hc => pinned_enter rfl hc) rfl _ _ hrel.enterBarrier
  exact ends_leave (opens_barrier w) _ _ (Rel.backResume hs) hends

/-- What is held may be held by the body of a call. -/
theorem pinned_enterPooled {f : Option Nat} {c d d' : Nat} {around : List Nat}
    (hd : w.Pinned d d') :
    ((w.push c around).enter (.pooled f w.size false false)).Pinned d d' := by
  refine hd.mono ((w.extends_push c around).enter _) (fun _ _ h => h.2) fun a ha => ?_
  rintro ⟨g, hg, hown⟩
  rcases List.mem_cons.mp hg with rfl | hg
  · have hscope := Frame.scope?_of_kept? (Frame.kept?_of_owned? hown)
    exact absurd (Option.some.inj hscope).symm (Nat.ne_of_lt (hd.known a ha))
  · exact ⟨g, hg, hown⟩

/-- The body of a call begins in a scope of its own. -/
theorem Rel.enterPooled (hs : Rel reserved w s s') (f : Option Nat) {c : Nat}
    {left right : Array TreeScript.Scope} (hscopes : Scopes (w.push c [s'.session.root]) left right)
    {pool : Pool} (hpooled : Pooled reserved (w.push c [s'.session.root]) left s.session.root pool)
    {m m' : Meter} (hm : m.unpooled = m'.unpooled) :
    Rel reserved ((w.push c [s'.session.root]).enter (.pooled f w.size false false))
      ((s.withSession { s.session with
        frames := .pooled f c false false :: s.session.frames, pool := pool, meter := m }).withHeap
          { s.heap with scopes := left })
      ((s'.withSession { s'.session with
        frames := .pooled f w.size false false :: s'.session.frames, meter := m' }).withHeap
          { s'.heap with scopes := right }) := by
  have hknown : ∀ g ∈ w.frames, ∀ a, g.scope? = some a → a ≠ w.size := fun g hg a ha =>
    Nat.ne_of_lt (hs.known g hg a ha)
  have hsize : ∀ g ∈ w.frames, g.kept? ≠ some w.size := fun g hg hk =>
    hknown g hg _ (Frame.scope?_of_kept? hk) rfl
  have hnew : ∀ {a}, (Frame.pooled f w.size false false).kept? = some a → a = w.size := by
    intro a ha
    cases f with
    | none => cases ha
    | some f => exact (Option.some.inj ha).symm
  have hrel := hs.change ((w.push c [s'.session.root]).enter (.pooled f w.size false false))
    (hscopes.bury rfl rfl rfl fun _ h => h) pinned_enterPooled
    (fun a ha => if_neg (Nat.ne_of_lt ha))
    (fun g hg a ha => by
      rcases List.mem_cons.mp hg with rfl | hg
      · cases ha
        exact Nat.lt_succ_self _
      · exact Nat.lt_succ_of_lt (hs.known g hg a ha))
    (fun g hg a ha => by
      rcases List.mem_cons.mp hg with rfl | hg
      · rw [hnew ha]
        exact ⟨fun hd => hd.1 rfl, if_pos rfl⟩
      · obtain ⟨hlive, haround⟩ := hs.kept g hg a ha
        exact ⟨fun hd => hlive hd.2,
          (if_neg (hknown g hg a (Frame.scope?_of_kept? ha))).trans haround⟩)
    (hs.distinct_cons fun a ha g hg => hnew ha ▸ hsize g hg)
    (hpooled.congr fun h => h.bury rfl rfl fun _ h => h) hm
  have hframes : ((w.push c [s'.session.root]).enter (.pooled f w.size false false)).frames.map
      (Frame.rename ((w.push c [s'.session.root]).enter (.pooled f w.size false false)).image) =
      .pooled f c false false :: s.session.frames := by
    rw [hs.frames]
    refine congrArg₂ List.cons (congrArg (Frame.pooled f · false false) (if_pos rfl)) ?_
    exact List.map_congr_left fun g hg =>
      Frame.rename_congr fun a ha => if_neg (hknown g hg a ha)
  rw [hframes, ← hs.pool'] at hrel
  rw [hs.frames']
  exact hrel

/-- The body of a call runs alike in the scopes that the two sides have taken for it. -/
theorem ends_call (hs : Rel reserved w s s') {ev ev' : Evaluator} (f : Option Nat) {c : Nat}
    {x y : Nat → Exec Value}
    (h : ∀ w₁ c c', (simulation reserved).enters w w₁ → (simulation reserved).scope w₁ c c' →
      (simulation reserved).Agrees ev ev' w₁ (x c) (y c'))
    {t t' : State}
    (hrel : Rel reserved ((w.push c [s'.session.root]).enter (.pooled f w.size false false))
      (t.withFrames (.pooled f c false false :: t.session.frames))
      (t'.withFrames (.pooled f w.size false false :: t'.session.frames))) :
    (simulation reserved).Ends w (fun _ a b => a = b)
      (settle (withFrame (.pooled f c false false) (x c)) ev t)
      (settle (withFrame (.pooled f w.size false false) (y w.size)) ev' t') := by
  have hopens : Opens w ((w.push c [s'.session.root]).enter (.pooled f w.size false false))
      (.pooled f w.size false false) := by
    refine ⟨(w.extends_push c _).enter _, rfl, fun _ _ h => h.2, fun a ha => ?_⟩
    have hscope := Frame.scope?_of_kept? (Frame.kept?_of_owned? ha)
    exact Nat.le_of_eq (Option.some.inj hscope)
  have hscope : ((w.push c [s'.session.root]).enter (.pooled f w.size false false)).Scope c
      w.size := by
    have hnew := safe_push (c := c) hs.root hs.not_owned_size
    rw [World.chain, hs.rootAround] at hnew
    exact hnew.mono ((World.Extends.refl _).enter _) (fun _ _ h => h) fun _ _ h => h
  have hends := h _ c w.size (fun _ _ hd => pinned_enterPooled hd) hscope _ _ hrel
  exact ends_leave hopens (fun t => t) (fun t => t) (fun _ ht => ht) hends

theorem callScopeLaw {ev ev' : Evaluator} {w : World} (function : Option Nat) {x y : Nat → Exec Value}
    (h : ∀ w₁ c c', (simulation reserved).enters w w₁ → (simulation reserved).scope w₁ c c' →
      (simulation reserved).Agrees ev ev' w₁ (x c) (y c')) :
    (simulation reserved).Agrees ev ev' w
      (acquireScope function >>= fun c => settle (withFrame (.pooled function c false false) (x c)))
      (acquireScope function >>= fun c =>
        settle (withFrame (.pooled function c false false) (y c))) := by
  intro s s' hs
  have hrel : Rel reserved w s s' := hs
  have hsize : s'.heap.scopes.size = w.size := hrel.scopes.size
  obtain ⟨hleft, hright⟩ := hrel.newScope_eq hrel.root
  have hchain : w.chain s'.session.root = [s'.session.root] := by
    rw [World.chain, hrel.rootAround]
  have hscopes := hrel.scopes.pushNew hrel.root.known
  rw [hchain] at hleft hright hscopes
  rw [bind_apply, bind_apply]
  -- the right side has nothing pooled and makes a scope, also where the left side takes one
  cases function with
  | none =>
    rw [acquireScope_none, acquireScope_none, hleft, hright, hsize]
    exact ends_call hrel none h (hrel.enterPooled none hscopes (hrel.pooledNew _ _) hrel.meter)
  | some f =>
    rw [acquireScope_some, acquireScope_some, hrel.pool']
    rw [show (Pool.empty 0).acquire? f = none from rfl, hright, hsize]
    cases hacquire : s.session.pool.acquire? f with
    | none =>
      rw [hleft]
      have hm : (s.session.meter.countPool false).unpooled =
          (s'.session.meter.countPool false).unpooled := by
        rw [unpooled_countPool, unpooled_countPool]
        exact hrel.meter
      exact ends_call hrel (some f) h (hrel.enterPooled (some f) hscopes (hrel.pooledNew _ _) hm)
    | some taken =>
      obtain ⟨c, rest⟩ := taken
      have hm : (s.session.meter.countPool true).unpooled =
          (s'.session.meter.countPool false).unpooled := by
        rw [unpooled_countPool, unpooled_countPool]
        exact hrel.meter
      have hidle := hrel.pooled.idle
        ((Pool.idle_of_acquire? hacquire).1 ▸ List.mem_cons_self : c ∈ s.session.pool.idle f)
      have hpooled := hrel.pooled.acquire hacquire (w.push c [s'.session.root])
        (s.heap.scopes.modify c (rebind fun _ => .empty)) fun hne h => h.push _ hne
          (Nat.le_of_eq Array.size_modify.symm) fun a _ => ancestors_modify _ c a _
      exact ends_call hrel (some f) h (hrel.enterPooled (some f)
        (hrel.scopes.pushIdle hidle hrel.root.lt hrel.root.image) hpooled hm)

theorem asideLaw {ev ev' : Evaluator} {w : World} {x y : Exec Value}
    (h : ∀ w₁, (∀ c c', (simulation reserved).scope w c c' → (simulation reserved).scope w₁ c c') →
      (∀ e, (simulation reserved).fits w e → (simulation reserved).fits w₁ e) →
      (simulation reserved).Agrees ev ev' w₁ x y) :
    (simulation reserved).Agrees ev ev' w (withResume [] x) (withResume [] y) := by
  intro s s' hs
  have hrel : Rel reserved w (s.withResume []) (s'.withResume []) := { hs with resume := .nil }
  have hends := h w (fun _ _ hc => hc) (fun _ he => he) _ _ hrel
  have hback : ∀ {w₃ t t'}, w.Unwound w₃ → Rel reserved w₃ t t' →
      Rel reserved w₃ (t.withResume s.session.resume) (t'.withResume s'.session.resume) :=
    fun hw ht => { ht with
      resume := (Rel.resume hs).imp fun _ _ => ResumeFrame.Alike.mono hw.pinned }
  rw [withResume_apply, withResume_apply]
  generalize x ev (s.withResume []) = p at hends ⊢
  generalize y ev' (s'.withResume []) = q at hends ⊢
  cases hends with
  | value hle ht hab => exact .value hle (hback hle.unwound ht) hab
  | signal hg ht => exact .signal hg (hback (hg.unwound ordered) ht)
  | halted k hw ht => exact .halted k hw (hback hw ht)
  | stopped t r hlax => exact .stopped _ _ hlax

/-! ## Coroutines -/

/-- A coroutine is replaced on both sides. -/
theorem Rel.setCoroutine (hs : Rel reserved w s s') (i : Nat) {c c' : Coroutine}
    (hc : Coroutine.Alike w.Pinned c c') (hstate : c.state = c'.state) (hname : c.name = c'.name) :
    Rel reserved w (s.withHeap (s.heap.setCoroutine i c))
      (s'.withHeap (s'.heap.setCoroutine i c')) := by
  have hsize := hs.alike.coroutineCount
  exact { hs with
    alike := { hs.alike with
      coroutineCount := by
        show (Array.setIfInBounds _ _ _).size = (Array.setIfInBounds _ _ _).size
        rw [Array.size_setIfInBounds, Array.size_setIfInBounds, hsize]
      coroutineState := fun j => getD_set (R := fun c c' : Coroutine => c.state = c'.state) hsize
        (hs.alike.coroutineState j) hstate
      coroutineName := fun j => getD_set (R := fun c c' : Coroutine => c.name = c'.name) hsize
        (hs.alike.coroutineName j) hname }
    coroutines := fun j hj => getD_set hsize (hs.coroutine j) hc }

/-- A coroutine is given another state and another way back on both sides. -/
theorem Rel.setWay (hs : Rel reserved w s s') (i : Nat) (state : CoroutineState)
    {fs fs' : List ResumeFrame} (hfs : List.Forall₂ (ResumeFrame.Alike w.Pinned) fs fs') :
    Rel reserved w
      (s.withHeap (s.heap.setCoroutine i { s.heap.coroutine i with state := state, frames := fs }))
      (s'.withHeap (s'.heap.setCoroutine i { s'.heap.coroutine i with state := state, frames := fs' })) := by
  have hc := hs.coroutine i
  exact hs.setCoroutine i ⟨hc.params, hc.args, hc.body, hc.origin, hc.scope, hfs⟩ rfl
    (hs.alike.coroutineName i)

/-- The body of a coroutine ends or is left by a `yield`, and the way back of the body outside is put in place
again. -/
theorem ends_leaveCoroutine (hs : Rel reserved w s s') (i : Nat) {p q : Outcome Value × State}
    (hends : (simulation reserved).Ends (w.enter .barrier) (fun _ a b => a = b) p q) :
    (simulation reserved).Ends w (fun _ a b => a = b) (leaveCoroutine i s.session.resume p)
      (leaveCoroutine i s'.session.resume q) := by
  -- the coroutine is finished unless it is left by a `yield`
  have hfinished := ends_leave (opens_barrier w)
    (fun t => finishCoroutine i (t.withResume s.session.resume))
    (fun t => finishCoroutine i (t.withResume s'.session.resume))
    (fun hle ht => (hs.backResume hle ht).setWay i .finished .nil) hends
  cases hends with
  | value _ _ _ | halted _ _ _ => exact hfinished
  | stopped t r hlax => exact .stopped _ _ hlax
  | signal hg ht =>
    cases hg with
    | yieldValue v hunwound hfs =>
      obtain ⟨f₂, hframes, hle⟩ := (opens_barrier w).le_bury hunwound.unwound
      refine .value hle ((hs.backResume hle (ht.leaveFrame hframes)).setWay i .suspended
        (hfs.imp fun _ _ => ResumeFrame.Alike.mono fun {d d'} hd => ?_)) rfl
      -- the body owns no scope, so what it uses may be held by the coroutine
      refine (hd.pinned_of_own? (ordered.closed_mono hunwound rfl)).bury ?_
      rintro a ⟨f, hf, ha⟩
      exact ⟨f, hframes ▸ List.mem_cons_of_mem f₂ hf, ha⟩
    | _ => exact hfinished

/-- What a coroutine goes on with. -/
theorem resumedLaw {ev ev' : Evaluator} {w : World} {s s' : State} (i : Nat)
    {frames frames' : List ResumeFrame} {running running' : Coroutine}
    (hs : (simulation reserved).rel w s s')
    (hbegin : (s.heap.coroutine i).begin? = .ok (some (frames, running)))
    (hbegin' : (s'.heap.coroutine i).begin? = .ok (some (frames', running')))
    (h : ∀ w₁ c c' e, (simulation reserved).enters w w₁ → (simulation reserved).closed w₁ →
      (simulation reserved).scope w₁ c c' →
      (simulation reserved).Agrees ev ev' w₁ (eval e c) (eval e c')) :
    (simulation reserved).Ends w (fun _ a b => a = b)
      (untilYield i (withResume frames
          (withFrame .barrier (eval (s.heap.coroutine i).body (s.heap.coroutine i).scope))) ev
        (s.withHeap (s.heap.setCoroutine i running)))
      (untilYield i (withResume frames'
          (withFrame .barrier (eval (s'.heap.coroutine i).body (s'.heap.coroutine i).scope))) ev'
        (s'.withHeap (s'.heap.setCoroutine i running'))) := by
  have hrel : Rel reserved w s s' := hs
  obtain ⟨rfl, rfl⟩ := Coroutine.begin?_eq_some hbegin
  obtain ⟨rfl, rfl⟩ := Coroutine.begin?_eq_some hbegin'
  have hc := hrel.coroutine i
  -- the body begins with the way back that the coroutine has kept
  have hstart := ((hrel.setWay i .running .nil).withResume hc.frames).enterBarrier
  have hends := h (w.enter .barrier) _ _ (s.heap.coroutine i).body
    (fun _ _ hd => pinned_enter rfl hd) rfl (pinned_enter rfl hc.scope).scope _ _ hstart
  have hbody : eval (s.heap.coroutine i).body (s'.heap.coroutine i).scope =
      eval (s'.heap.coroutine i).body (s'.heap.coroutine i).scope := by
    rw [hc.body]
  rw [hbody] at hends
  rw [untilYield_apply, untilYield_apply]
  exact ends_leaveCoroutine hrel i hends

theorem boundaryLaws : (simulation reserved).BoundaryLaws where
  call := Simulation.agrees_asCall ordered Rel.calls fun _ hs => { hs with calls := rfl }
  barrier := barrierLaw
  callScope function _ _ _ := callScopeLaw function
  aside _ := asideLaw
  resumed := resumedLaw

theorem lawful : (simulation reserved).Lawful where
  toOrdered := ordered
  toNodeLaws := nodeLaws
  toValueLaws := valueLaws
  toTypingLaws := typingLaws
  toScopeLaws := scopeLaws
  toStorageLaws := storageLaws
  toCatalogLaws := catalogLaws
  toSessionLaws := sessionLaws
  toWayLaws := wayLaws
  toBoundaryLaws := boundaryLaws

end Pooling
end TreeScript
