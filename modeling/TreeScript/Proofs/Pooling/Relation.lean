import Mathlib.Data.List.Forall2
import TreeScript.Proofs.Pooling.Scopes
import TreeScript.Proofs.Simulation.Control

/-
# States of which one uses scopes again

The two sides have the same storage but for scopes, and hold scopes of which one is the image of the
other.  The pool of the right side stays empty.  The scopes that are idle on the left side stand for
no scope of the right side that is alive; those of the other sessions, which are *reserved*, do not
either.
-/

namespace TreeScript

/-- The meter without what it has counted of the pool. -/
def Meter.unpooled (m : Meter) : Meter := m.count fun c => { c with poolHits := 0, poolMisses := 0 }

/-- Coroutines with the same body, which hold scopes that are related. -/
structure Coroutine.Alike (related : Nat → Nat → Prop) (c c' : Coroutine) : Prop where
  params : c.params = c'.params
  args : c.args = c'.args
  body : c.body = c'.body
  origin : related c.origin c'.origin
  scope : related c.scope c'.scope
  frames : List.Forall₂ (ResumeFrame.Alike related) c.frames c'.frames

theorem Coroutine.Alike.mono {related related' : Nat → Nat → Prop}
    (h : ∀ {c c'}, related c c' → related' c c') {c c' : Coroutine} (hc : Alike related c c') :
    Alike related' c c' :=
  ⟨hc.params, hc.args, hc.body, h hc.origin, h hc.scope,
    hc.frames.imp fun _ _ => ResumeFrame.Alike.mono h⟩

namespace Pooling

/-! ## Idle scopes -/

variable (reserved : Nat → Nat → Prop)

/-- The idle scopes of a session, beside those that are reserved for others. -/
structure Pooled (w : World) (left : Array TreeScript.Scope) (root : Nat) (pool : Pool) : Prop where
  idle : ∀ {f c}, c ∈ pool.idle f → Idle w left root c
  nodup : ∀ f, (pool.idle f).Nodup
  disjoint : ∀ {f g c}, c ∈ pool.idle f → c ∈ pool.idle g → f = g
  others : ∀ {f c r}, c ∈ pool.idle f → ¬ reserved c r
  reserved : ∀ {c r}, reserved c r → Idle w left r c

/-! ## States -/

/-- The two sides have the same storage, up to the numbers of scopes. -/
structure Storage (w : World) (h h' : Heap) : Prop where
  alike : h.Alike h'
  scopes : Scopes w h.scopes h'.scopes
  objects : ∀ i < h.objects.size, w.Pinned (h.object i).fields (h'.object i).fields
  callables : ∀ i < h.callables.size,
    Callable.Alike (fun _ => True) w.Pinned (h.callable i) (h'.callable i)
  coroutines : ∀ i < h.coroutines.size,
    Coroutine.Alike w.Pinned (h.coroutine i) (h'.coroutine i)

/-- The left side uses scopes again, and the right side does not. -/
structure Rel (w : World) (s s' : State) : Prop extends Storage w s.heap s'.heap where
  /-- What is not stored anywhere lies in the first scope. -/
  origin : w.Pinned 0 0
  sites : s.sites = s'.sites
  held : s.held = s'.held
  id : s.session.id = s'.session.id
  root : w.Pinned s.session.root s'.session.root
  rootAround : w.around s'.session.root = []
  catalog : s.session.catalog = s'.session.catalog
  classes : s.session.classes = s'.session.classes
  cancellation : s.session.cancellation = s'.session.cancellation
  parser : s.session.parser? = s'.session.parser?
  mode : s.session.mode = s'.session.mode
  meter : s.session.meter.unpooled = s'.session.meter.unpooled
  calls : s.session.calls = s'.session.calls
  output : s.session.output = s'.session.output
  resume : List.Forall₂ (ResumeFrame.Alike w.Pinned) s.session.resume s'.session.resume
  frames : s.session.frames = w.frames.map (Frame.rename w.image)
  frames' : s'.session.frames = w.frames
  known : ∀ f ∈ w.frames, ∀ a, f.scope? = some a → a < w.size
  kept : ∀ f ∈ w.frames, ∀ a, f.kept? = some a → ¬ w.dead a ∧ w.around a = [s'.session.root]
  distinct : (w.frames.filterMap Frame.kept?).Nodup
  pooled : Pooled reserved w s.heap.scopes s.session.root s.session.pool
  pool' : s'.session.pool = .empty 0

variable {reserved} {w w' : World} {s s' : State}

/-! ## What the pool does -/

section
variable {left right : Array TreeScript.Scope} {root : Nat} {pool : Pool}

/-- The scopes that are idle stay so when what the heap holds changes and more is dead. -/
theorem Pooled.congr (h : Pooled reserved w left root pool) {left' : Array TreeScript.Scope}
    (hidle : ∀ {r c}, Idle w left r c → Idle w' left' r c) : Pooled reserved w' left' root pool :=
  ⟨fun hc => hidle (h.idle hc), h.nodup, h.disjoint, h.others, fun hc => hidle (h.reserved hc)⟩

/-- The scope that a call takes is no longer idle. -/
theorem Pooled.acquire (h : Pooled reserved w left root pool) {f c : Nat} {rest : Pool}
    (hacquire : pool.acquire? f = some (c, rest)) (w' : World) (left' : Array TreeScript.Scope)
    (hidle : ∀ {r d}, c ≠ d → Idle w left r d → Idle w' left' r d) :
    Pooled reserved w' left' root rest := by
  obtain ⟨hf, hothers⟩ := Pool.idle_of_acquire? hacquire
  have hc : c ∈ pool.idle f := hf ▸ List.mem_cons_self
  have hnodup := h.nodup f
  rw [hf] at hnodup
  -- what is left idle was idle before, and is not the scope that is taken
  have hmem : ∀ {g d}, d ∈ rest.idle g → d ∈ pool.idle g ∧ c ≠ d := by
    intro g d hd
    by_cases hg : g = f
    · subst hg
      refine ⟨hf ▸ List.mem_cons_of_mem c hd, ?_⟩
      rintro rfl
      exact (List.nodup_cons.mp hnodup).1 hd
    · rw [hothers g hg] at hd
      refine ⟨hd, ?_⟩
      rintro rfl
      exact hg (h.disjoint hd hc)
  constructor
  case idle => exact fun hd => hidle (hmem hd).2 (h.idle (hmem hd).1)
  case nodup =>
    intro g
    by_cases hg : g = f
    · subst hg
      exact (List.nodup_cons.mp hnodup).2
    · rw [hothers g hg]
      exact h.nodup g
  case disjoint => exact fun hd hd' => h.disjoint (hmem hd).1 (hmem hd').1
  case others => exact fun hd => h.others (hmem hd).1
  case reserved =>
    intro d r hr
    refine hidle ?_ (h.reserved hr)
    rintro rfl
    exact h.others hc hr

/-- A scope that stood for one that has just died may be left to a function. -/
theorem Pooled.release (h : Pooled reserved w left root pool) (w' : World) (hsize : w'.size = w.size)
    (himage : w'.image = w.image) (hdead : ∀ a, w.dead a → w'.dead a) (S : Scopes w left right)
    {root' a : Nat} (ha : a < w.size) (hlive : ¬ w.dead a) (hdies : w'.dead a)
    (haround : w.around a = [root']) (hroot : w.image root' = root) (function : Nat) :
    Pooled reserved w' left root (pool.release function (w.image a)) := by
  have hnew := S.idle hsize himage hdead ha hlive hdies haround hroot
  have hunused : ∀ {g}, w.image a ∉ pool.idle g := fun hc => (h.idle hc).unused a ha hlive rfl
  have hmem : ∀ {g c}, c ∈ (pool.release function (w.image a)).idle g →
      (c = w.image a ∧ g = function) ∨ c ∈ pool.idle g := by
    intro g c hc
    rw [Pool.idle_release] at hc
    split at hc
    · rename_i hg
      rcases List.mem_cons.mp hc with rfl | hc
      · exact Or.inl ⟨rfl, hg.1⟩
      · rw [hg.1]
        exact Or.inr hc
    · exact Or.inr hc
  constructor
  case idle =>
    intro g c hc
    rcases hmem hc with ⟨rfl, _⟩ | hc
    · exact hnew
    · exact (h.idle hc).bury hsize himage hdead
  case nodup =>
    intro g
    rw [Pool.idle_release]
    split
    · exact List.nodup_cons.mpr ⟨hunused, h.nodup function⟩
    · exact h.nodup g
  case disjoint =>
    intro g k c hg hk
    rcases hmem hg with ⟨rfl, rfl⟩ | hold <;> rcases hmem hk with ⟨hc, rfl⟩ | hold'
    · rfl
    · exact absurd hold' hunused
    · rw [hc] at hold
      exact absurd hold hunused
    · exact h.disjoint hold hold'
  case others =>
    intro g c r hc hr
    rcases hmem hc with ⟨rfl, _⟩ | hc
    · exact (h.reserved hr).unused a ha hlive rfl
    · exact h.others hc hr
  case reserved => exact fun hr => (h.reserved hr).bury hsize himage hdead

end

/-! ## Pinned scopes -/

theorem Rel.fields (hs : Rel reserved w s s') (i : Nat) :
    w.Pinned (s.heap.object i).fields (s'.heap.object i).fields := by
  by_cases hi : i < s.heap.objects.size
  · exact hs.objects i hi
  · have hi' : ¬ i < s'.heap.objects.size := hs.alike.objectCount ▸ hi
    rw [Heap.object, Heap.object, Array.getD, Array.getD, dif_neg hi, dif_neg hi']
    exact hs.origin

theorem Rel.callable (hs : Rel reserved w s s') (i : Nat) :
    Callable.Alike (fun _ => True) w.Pinned (s.heap.callable i) (s'.heap.callable i) := by
  by_cases hi : i < s.heap.callables.size
  · exact hs.callables i hi
  · have hi' : ¬ i < s'.heap.callables.size := hs.alike.callableCount ▸ hi
    rw [Heap.callable, Heap.callable, Array.getD, Array.getD, dif_neg hi, dif_neg hi']
    exact .deferred _ hs.origin

theorem Rel.coroutine (hs : Rel reserved w s s') (i : Nat) :
    Coroutine.Alike w.Pinned (s.heap.coroutine i) (s'.heap.coroutine i) := by
  by_cases hi : i < s.heap.coroutines.size
  · exact hs.coroutines i hi
  · have hi' : ¬ i < s'.heap.coroutines.size := hs.alike.coroutineCount ▸ hi
    rw [Heap.coroutine, Heap.coroutine, Array.getD, Array.getD, dif_neg hi, dif_neg hi']
    exact ⟨rfl, rfl, rfl, hs.origin, hs.origin, .nil⟩

/-! ## Other frames -/

/-- A scope that a frame owns is known and alive. -/
theorem Rel.of_owned (hs : Rel reserved w s s') {a : Nat} (ha : w.Owned a) :
    a < w.size ∧ ¬ w.dead a ∧ w.around a = [s'.session.root] := by
  obtain ⟨f, hf, ha⟩ := ha
  have hkept := Frame.kept?_of_owned? ha
  exact ⟨hs.known f hf a (Frame.scope?_of_kept? hkept), hs.kept f hf a hkept⟩

/-- Storage stays alike when scopes change, if nothing that is held dies or comes to be owned. -/
theorem Storage.change {h h' : Heap} (hst : Storage w h h') (w' : World)
    {left right : Array TreeScript.Scope} (hscopes : Scopes w' left right)
    (hpinned : ∀ {c c'}, w.Pinned c c' → w'.Pinned c c') :
    Storage w' { h with scopes := left } { h' with scopes := right } where
  alike := hst.alike.withScopes left right
  scopes := hscopes
  objects i hi := hpinned (hst.objects i hi)
  callables i hi := Callable.Alike.mono (fun h => h) hpinned (hst.callables i hi)
  coroutines i hi := Coroutine.Alike.mono hpinned (hst.coroutines i hi)

/-- What is held stays as it is when scopes, frames and the pool change, if nothing that is held dies
or comes to be owned. -/
theorem Rel.change (hs : Rel reserved w s s') (w' : World) {left right : Array TreeScript.Scope}
    (hscopes : Scopes w' left right) (hpinned : ∀ {c c'}, w.Pinned c c' → w'.Pinned c c')
    (haround : ∀ a < w.size, w'.around a = w.around a)
    (hknown : ∀ f ∈ w'.frames, ∀ a, f.scope? = some a → a < w'.size)
    (hkept : ∀ f ∈ w'.frames, ∀ a, f.kept? = some a →
      ¬ w'.dead a ∧ w'.around a = [s'.session.root])
    (hdistinct : (w'.frames.filterMap Frame.kept?).Nodup) {pool : Pool}
    (hpooled : Pooled reserved w' left s.session.root pool) {m m' : Meter}
    (hm : m.unpooled = m'.unpooled) :
    Rel reserved w'
      ((s.withSession { s.session with
        frames := w'.frames.map (Frame.rename w'.image), pool := pool, meter := m }).withHeap
          { s.heap with scopes := left })
      ((s'.withSession { s'.session with
        frames := w'.frames, pool := .empty 0, meter := m' }).withHeap
          { s'.heap with scopes := right }) :=
  { hs with
    toStorage := hs.toStorage.change w' hscopes hpinned
    origin := hpinned hs.origin
    root := hpinned hs.root
    rootAround := (haround _ hs.root.lt).trans hs.rootAround
    meter := hm
    resume := hs.resume.imp fun _ _ => ResumeFrame.Alike.mono hpinned
    frames := rfl
    frames' := rfl
    known := hknown
    kept := hkept
    distinct := hdistinct
    pooled := hpooled
    pool' := rfl }

/-- The frames and the pool change, and more scopes are dead. -/
theorem Rel.withFrames (hs : Rel reserved w s s') (w' : World) (hsize : w'.size = w.size)
    (himage : w'.image = w.image) (haround : w'.around = w.around)
    (hdead : ∀ a, w.dead a → w'.dead a) (hpinned : ∀ {c c'}, w.Pinned c c' → w'.Pinned c c')
    (hknown : ∀ f ∈ w'.frames, ∀ a, f.scope? = some a → a < w.size)
    (hkept : ∀ f ∈ w'.frames, ∀ a, f.kept? = some a →
      ¬ w'.dead a ∧ w.around a = [s'.session.root])
    (hdistinct : (w'.frames.filterMap Frame.kept?).Nodup) {pool : Pool}
    (hpooled : Pooled reserved w' s.heap.scopes s.session.root pool) :
    Rel reserved w'
      (s.withSession { s.session with
        frames := w'.frames.map (Frame.rename w.image), pool := pool })
      (s'.withSession { s'.session with frames := w'.frames, pool := .empty 0 }) := by
  rw [← himage]
  refine hs.change w' (hs.scopes.bury hsize himage haround hdead) hpinned
    (fun a _ => congrFun haround a) (fun f hf a ha => ?_) (fun f hf a ha => ?_) hdistinct hpooled
    hs.meter
  · rw [hsize]
    exact hknown f hf a ha
  · rw [haround]
    exact hkept f hf a ha

/-- Frames keep different scopes if one is entered that keeps what none of them keeps. -/
theorem Rel.distinct_cons (hs : Rel reserved w s s') {f : Frame}
    (hkept : ∀ a, f.kept? = some a → ∀ g ∈ w.frames, g.kept? ≠ some a) :
    ((f :: w.frames).filterMap Frame.kept?).Nodup := by
  cases hf : f.kept? with
  | none =>
    rw [List.filterMap_cons_none hf]
    exact hs.distinct
  | some a =>
    rw [List.filterMap_cons_some hf]
    refine List.nodup_cons.mpr ⟨fun hmem => ?_, hs.distinct⟩
    obtain ⟨g, hg, ha⟩ := List.mem_filterMap.mp hmem
    exact hkept a hf g hg ha

/-- A body begins in a frame that keeps no scope, or a scope that no frame has kept. -/
theorem Rel.enter (hs : Rel reserved w s s') {f : Frame}
    (hpinned : ∀ {c c'}, w.Pinned c c' → (w.enter f).Pinned c c')
    (hknown : ∀ a, f.scope? = some a → a < w.size)
    (hkept : ∀ a, f.kept? = some a → ¬ w.dead a ∧ w.around a = [s'.session.root] ∧
      ∀ g ∈ w.frames, g.kept? ≠ some a) :
    Rel reserved (w.enter f)
      (s.withFrames (f.rename w.image :: s.session.frames))
      (s'.withFrames (f :: s'.session.frames)) := by
  have hrel := hs.withFrames (w.enter f) rfl rfl rfl (fun _ h => h) hpinned
    (fun g hg a ha => by
      rcases List.mem_cons.mp hg with rfl | hg
      · exact hknown a ha
      · exact hs.known g hg a ha)
    (fun g hg a ha => by
      rcases List.mem_cons.mp hg with rfl | hg
      · exact ⟨(hkept a ha).1, (hkept a ha).2.1⟩
      · exact hs.kept g hg a ha)
    (hs.distinct_cons fun a ha => (hkept a ha).2.2)
    (hs.pooled.congr fun h => h.bury rfl rfl fun _ h => h)
  have hleft : s.withFrames (f.rename w.image :: s.session.frames) =
      s.withSession { s.session with
        frames := (f :: w.frames).map (Frame.rename w.image), pool := s.session.pool } := by
    rw [hs.frames]
    rfl
  have hright : s'.withFrames (f :: s'.session.frames) =
      s'.withSession { s'.session with frames := f :: w.frames, pool := .empty 0 } := by
    rw [hs.frames', ← hs.pool']
    rfl
  rw [hleft, hright]
  exact hrel

theorem owned_of_mem {f : Frame} (hf : f ∈ w.frames) {a : Nat} (ha : f.owned? = some a) : w.Owned a :=
  ⟨f, hf, ha⟩

/-! ### The innermost frame -/

section
variable {f : Frame} {rest frames : List Frame} (hw : w.frames = f :: rest)
include hw

theorem own?_of_frames : w.own? = f.owned? := by
  unfold World.own?
  rw [hw]
  rfl

/-- What the innermost frame owns is kept by no frame further out. -/
theorem Rel.ne_own (hs : Rel reserved w s s') {g : Frame} (hg : g ∈ rest) {a : Nat} (ha : g.kept? = some a) :
    w.own? ≠ some a := by
  intro hown
  rw [own?_of_frames hw] at hown
  have hdistinct := hs.distinct
  rw [hw, List.filterMap_cons_some (Frame.kept?_of_owned? hown)] at hdistinct
  exact (List.nodup_cons.mp hdistinct).1 (List.mem_filterMap.mpr ⟨g, hg, ha⟩)

variable (hframes : frames = rest ∨ frames = f.release :: rest)
include hframes

theorem mem_of_left {g : Frame} (hg : g ∈ frames) : g ∈ rest ∧ g ∈ w.frames ∨ g = f.release := by
  rcases hframes with rfl | rfl
  · exact Or.inl ⟨hg, hw ▸ List.mem_cons_of_mem f hg⟩
  · rcases List.mem_cons.mp hg with rfl | hg
    · exact Or.inr rfl
    · exact Or.inl ⟨hg, hw ▸ List.mem_cons_of_mem f hg⟩

/-- The frames that are left still keep different scopes. -/
theorem Rel.nodup_left (hs : Rel reserved w s s') : (frames.filterMap Frame.kept?).Nodup := by
  have hdistinct := hs.distinct
  rw [hw] at hdistinct
  have hnodup : (rest.filterMap Frame.kept?).Nodup := by
    cases hk : f.kept? with
    | none => rwa [List.filterMap_cons_none hk] at hdistinct
    | some a =>
      rw [List.filterMap_cons_some hk] at hdistinct
      exact (List.nodup_cons.mp hdistinct).2
  rcases hframes with rfl | rfl
  · exact hnodup
  · cases hk : f.release.kept? with
    | none =>
      rw [List.filterMap_cons_none hk]
      exact hnodup
    | some a =>
      rw [List.filterMap_cons_some hk]
      rw [List.filterMap_cons_some (Frame.kept?_release hk).1] at hdistinct
      exact hdistinct

/-- The frames that are left keep scopes that live on. -/
theorem Rel.kept_left (hs : Rel reserved w s s') {g : Frame} (hg : g ∈ frames) {a : Nat}
    (ha : g.kept? = some a) : ¬ (w.bury frames).dead a ∧ w.around a = [s'.session.root] := by
  rcases mem_of_left hw hframes hg with ⟨hrest, hg⟩ | rfl
  · obtain ⟨hlive, haround⟩ := hs.kept g hg a ha
    refine ⟨?_, haround⟩
    rintro (hd | hd)
    · exact hlive hd
    · exact hs.ne_own hw hrest ha hd
  · obtain ⟨hkept, hnone⟩ := Frame.kept?_release ha
    obtain ⟨hlive, haround⟩ := hs.kept f (hw ▸ List.mem_cons_self) a hkept
    refine ⟨?_, haround⟩
    rintro (hd | hd)
    · exact hlive hd
    · rw [own?_of_frames hw, hnone] at hd
      cases hd

omit hframes in
/-- The pool gets the scope that the innermost frame owned, if any. -/
theorem Rel.pooled_leave (hs : Rel reserved w s s') (frames : List Frame) :
    Pooled reserved (w.bury frames) s.heap.scopes s.session.root
      (s.session.pool.leave (f.rename w.image)) := by
  cases ho : f.owned? with
  | none =>
    have hleave : s.session.pool.leave (f.rename w.image) = s.session.pool := by
      rcases f with ⟨_ | function, scope, _ | _, _ | _⟩ | _ <;> first | rfl | cases ho
    rw [hleave]
    exact hs.pooled.congr fun h => h.bury rfl rfl fun _ => Or.inl
  | some a =>
    have hown := own?_of_frames hw
    rcases f with ⟨_ | function, scope, _ | _, _ | _⟩ | _ <;> try cases ho
    obtain ⟨hlt, hlive, haround⟩ := hs.of_owned (owned_of_mem (hw ▸ List.mem_cons_self) rfl)
    exact hs.pooled.release (w.bury frames) rfl rfl (fun _ => Or.inl) hs.scopes hlt hlive
      (Or.inr hown) haround hs.root.image function

/-- The innermost frame gives back what it owns, and is taken away or goes on without it. -/
theorem Rel.giveBack (hs : Rel reserved w s s') :
    Rel reserved (w.bury frames)
      (s.withSession { s.session with
        frames := frames.map (Frame.rename w.image)
        pool := s.session.pool.leave (f.rename w.image) })
      (s'.withSession { s'.session with frames := frames, pool := .empty 0 }) := by
  refine hs.withFrames (w.bury frames) rfl rfl rfl (fun _ => Or.inl) (fun hc => hc.bury ?_) ?_
    (fun g hg a ha => hs.kept_left hw hframes hg ha) (hs.nodup_left hw hframes)
    (hs.pooled_leave hw frames)
  · rintro a ⟨g, hg, hga⟩
    rcases mem_of_left hw hframes hg with ⟨-, hg⟩ | rfl
    · exact ⟨g, hg, hga⟩
    · rw [Frame.owned?_release] at hga
      cases hga
  · intro g hg a ha
    rcases mem_of_left hw hframes hg with ⟨-, hg⟩ | rfl
    · exact hs.known g hg a ha
    · exact hs.known f (hw ▸ List.mem_cons_self) a (Frame.scope?_release f ▸ ha)

end

/-- The scope of the innermost frame is captured: what the body uses may be held from then on. -/
theorem Rel.retain (hs : Rel reserved w s s') :
    ∃ w' : World, w.Le w' ∧ (∀ c c', w.Scope c c' → w'.Pinned c c') ∧
      Rel reserved w' (s.withSession s.session.retainFrame)
        (s'.withSession s'.session.retainFrame) := by
  cases hw : w.frames with
  | nil =>
    have hleft : s.session.frames = [] := by rw [hs.frames, hw]; rfl
    have hright : s'.session.frames = [] := by rw [hs.frames', hw]
    rw [Session.retainFrame_nil hleft, Session.retainFrame_nil hright]
    refine ⟨w, .refl w, fun c c' hc => hc.pinned_of_own? ?_, hs⟩
    unfold World.own?
    rw [hw]
    rfl
  | cons f rest =>
    have hleft : s.session.frames = f.rename w.image :: rest.map (Frame.rename w.image) := by
      rw [hs.frames, hw]
      rfl
    rw [Session.retainFrame_eq hleft, Session.retainFrame_eq (hs.frames'.trans hw)]
    have hle : w.Le { w with frames := f.retain :: rest } :=
      ⟨⟨Nat.le_refl _, fun _ _ => rfl, fun _ _ => rfl⟩, hw ▸ .cons rest (Frame.goes_retain f),
        fun _ _ h => h⟩
    have hmem : ∀ {g}, g ∈ f.retain :: rest → ∃ g' ∈ w.frames, g.scope? = g'.scope? ∧
        g.kept? = g'.kept? := by
      intro g hg
      rw [hw]
      rcases List.mem_cons.mp hg with rfl | hg
      · exact ⟨f, List.mem_cons_self, Frame.scope?_retain f, Frame.kept?_retain f⟩
      · exact ⟨g, List.mem_cons_of_mem f hg, rfl, rfl⟩
    refine ⟨_, hle, fun c c' hc => ?_, ?_⟩
    · refine (hle.scope hc).pinned_of_own? ?_
      exact Frame.owned?_retain f
    · have hrel := hs.withFrames { w with frames := f.retain :: rest } rfl rfl rfl
        (fun _ h => h) (fun hc => hle.unwound.pinned hc)
        (fun g hg a ha => by
          obtain ⟨g', hg', hscope, _⟩ := hmem hg
          exact hs.known g' hg' a (hscope ▸ ha))
        (fun g hg a ha => by
          obtain ⟨g', hg', _, hkept⟩ := hmem hg
          exact hs.kept g' hg' a (hkept ▸ ha))
        (by
          have hdistinct := hs.distinct
          rw [hw] at hdistinct
          show ((f.retain :: rest).filterMap Frame.kept?).Nodup
          rw [List.filterMap_cons, Frame.kept?_retain]
          rwa [List.filterMap_cons] at hdistinct)
        (hs.pooled.congr fun h => h.bury rfl rfl fun _ h => h)
      rw [List.map_cons, Frame.rename_retain, ← hs.pool'] at hrel
      exact hrel

/-- The innermost frame leaves its scope early. -/
theorem Rel.releaseFrame (hs : Rel reserved w s s') :
    ∃ w' : World, w.Unwound w' ∧
      Rel reserved w' (s.withSession s.session.releaseFrame)
        (s'.withSession s'.session.releaseFrame) := by
  cases hw : w.frames with
  | nil =>
    have hleft : s.session.frames = [] := by rw [hs.frames, hw]; rfl
    have hright : s'.session.frames = [] := by rw [hs.frames', hw]
    rw [Session.releaseFrame_nil hleft, Session.releaseFrame_nil hright]
    exact ⟨w, (World.Le.refl w).unwound, hs⟩
  | cons f rest =>
    have hleft : s.session.frames = f.rename w.image :: rest.map (Frame.rename w.image) := by
      rw [hs.frames, hw]
      rfl
    rw [Session.releaseFrame_eq hleft, Session.releaseFrame_eq (hs.frames'.trans hw)]
    have hrel := hs.giveBack hw (Or.inr rfl)
    rw [List.map_cons, Frame.rename_release] at hrel
    rw [hs.pool', Pool.leave_empty]
    refine ⟨w.bury (f.release :: rest), ⟨(World.Extends.refl w).bury _, ?_, fun _ _ h => h⟩, hrel⟩
    rw [hw]
    exact .cons rest (Frame.goes_release f)

/-- The innermost frame is taken away. -/
theorem Rel.leaveFrame (hs : Rel reserved w s s') {f : Frame} {rest : List Frame}
    (hw : w.frames = f :: rest) :
    Rel reserved (w.bury rest) (Exec.leaveFrame s) (Exec.leaveFrame s') := by
  have hleft : s.session.frames = f.rename w.image :: rest.map (Frame.rename w.image) := by
    rw [hs.frames, hw]
    rfl
  unfold Exec.leaveFrame
  rw [Session.popFrame_eq hleft, Session.popFrame_eq (hs.frames'.trans hw), hs.pool',
    Pool.leave_empty]
  exact hs.giveBack hw (Or.inl rfl)

end Pooling
end TreeScript
