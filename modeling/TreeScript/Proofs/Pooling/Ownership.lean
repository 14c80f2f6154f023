import TreeScript.Proofs.Balance
import TreeScript.Proofs.Pooling.Scopes

/-
# Who gives a scope back

The pool hands the scope of a finished call out to another call of the same function.  That is safe only
if nobody else hands the scope out or gives it back: a scope is idle for one function, or owned by one
frame, or lost to the pool.  Places are counted (`places`): a call that leaves its scope early passes the
place from its frame to the pool, from where a callee may take it, so that the caller, whose frame is
still there, does not give the scope back a second time.

New scopes are in no place because all places are for scopes that the heap has.  What the pool hands out
is a child of the root and binds nothing.
-/

namespace TreeScript

open Exec

/-! ## Idle scopes -/

/-- How often a scope stands in a list, the first place apart. -/
theorem Pooling.count_cons (a c : Nat) (items : List Nat) :
    (a :: items).count c = [a].count c + items.count c := by
  rw [← List.count_append, List.singleton_append]

namespace Pool

/-- The idle scopes of all functions. -/
def scopes (p : Pool) : List Nat := p.free.entries.flatMap (·.2)

variable {p q : Pool} {f a c limit : Nat}

/-- The scopes of a key are there once, and not among those of the other keys. -/
theorem count_entries (entries : List (Nat × List Nat)) (f c : Nat) :
    ((entries.filter (·.1 ≠ f)).flatMap (·.2)).count c + ((entries.lookup f).getD []).count c ≤
      (entries.flatMap (·.2)).count c := by
  induction entries with
  | nil => exact Nat.le_refl 0
  | cons e es ih =>
    obtain ⟨g, items⟩ := e
    -- an entry of the key is one of those that `filter` drops, and only the first of them is looked up
    by_cases hg : g = f
    · subst hg
      simp only [ne_eq, not_true_eq_false, decide_false, Bool.false_eq_true, not_false_eq_true,
        List.filter_cons_of_neg, List.lookup_cons_self, Option.getD_some, List.flatMap_cons,
        List.count_append] at ih ⊢
      omega
    · have hne : (f == g) = false := beq_eq_false_iff_ne.mpr (Ne.symm hg)
      simp only [ne_eq, hg, not_false_eq_true, decide_true, List.filter_cons_of_pos,
        List.lookup_cons, hne, List.flatMap_cons, List.count_append] at ih ⊢
      omega

/-- The idle scopes of a function are replaced, and no others. -/
theorem count_withIdle (p : Pool) (f c : Nat) (items : List Nat) :
    (p.withIdle f items).scopes.count c + (p.idle f).count c ≤ items.count c + p.scopes.count c := by
  have hentries := count_entries p.free.entries f c
  have hcount : (p.withIdle f items).scopes.count c =
      items.count c + ((p.free.entries.filter (·.1 ≠ f)).flatMap (·.2)).count c :=
    List.count_append
  show _ + ((p.free.entries.lookup f).getD []).count c ≤ _ + (p.free.entries.flatMap (·.2)).count c
  omega

theorem count_release (p : Pool) (f a c : Nat) :
    (p.release f a).scopes.count c ≤ p.scopes.count c + [a].count c := by
  unfold release
  dsimp only
  split
  · have hcount := count_withIdle p f c (a :: p.idle f)
    have hcons := Pooling.count_cons a c (p.idle f)
    omega
  · omega

theorem count_acquire? (h : p.acquire? f = some (a, q)) (c : Nat) :
    q.scopes.count c + [a].count c ≤ p.scopes.count c := by
  unfold acquire? at h
  split at h
  · rename_i first rest hidle
    cases h
    have hcount := count_withIdle p f c rest
    have hcons := Pooling.count_cons a c rest
    rw [hidle] at hcount
    omega
  · cases h

theorem count_leave (p : Pool) (fr : Frame) (c : Nat) :
    (p.leave fr).scopes.count c ≤ p.scopes.count c + fr.owned?.toList.count c := by
  rcases fr with ⟨_ | f, a, _ | _, _ | _⟩ | _ <;>
    first | exact count_release p f a c | exact Nat.le_add_right _ _

/-- No function has more idle scopes than a limit. -/
structure Short (limit : Nat) (p : Pool) : Prop where
  capacity : p.capacity ≤ limit
  lists : ∀ e ∈ p.free.entries, e.2.length ≤ limit

theorem Short.withIdle (h : p.Short limit) {items : List Nat} (hitems : items.length ≤ limit) :
    (p.withIdle f items).Short limit := by
  refine ⟨h.capacity, fun e he => ?_⟩
  rcases Table.mem_insert he with rfl | he
  · exact hitems
  · exact h.lists e he

theorem Short.release (h : p.Short limit) : (p.release f a).Short limit := by
  unfold Pool.release
  dsimp only
  split
  · rename_i hlength
    exact h.withIdle (Nat.le_trans hlength h.capacity)
  · exact h

theorem Short.acquire? (h : p.Short limit) (hacquire : p.acquire? f = some (a, q)) :
    q.Short limit := by
  unfold Pool.acquire? at hacquire
  split at hacquire
  · rename_i first rest hidle
    cases hacquire
    unfold idle at hidle
    cases hfind : p.free.find? f with
    | none =>
      rw [hfind] at hidle
      cases hidle
    | some items =>
      rw [hfind] at hidle
      cases (hidle : items = a :: rest)
      have hmem : (f, a :: rest) ∈ p.free.entries := Table.mem_of_find? hfind
      exact h.withIdle (Nat.le_of_succ_le (h.lists _ hmem))
  · cases hacquire

theorem Short.leave (h : p.Short limit) (fr : Frame) : (p.leave fr).Short limit := by
  rcases fr with ⟨_ | f, a, _ | _, _ | _⟩ | _ <;> first | exact h.release | exact h

theorem mem_scopes_of_acquire? (h : p.acquire? f = some (a, q)) : a ∈ p.scopes := by
  have hcount := count_acquire? h a
  rw [List.count_singleton_self] at hcount
  exact List.count_pos_iff.mp (Nat.lt_of_lt_of_le (Nat.succ_pos _) hcount)

theorem mem_scopes_of_leave {fr : Frame} (h : c ∈ (p.leave fr).scopes) :
    c ∈ p.scopes ∨ fr.scope? = some c := by
  have hcount := count_leave p fr c
  have hpos := List.count_pos_iff.mpr h
  by_cases hp : c ∈ p.scopes
  · exact Or.inl hp
  · rw [List.count_eq_zero_of_not_mem hp] at hcount
    have howned : c ∈ fr.owned?.toList := List.count_pos_iff.mp (by omega)
    exact Or.inr (Frame.scope?_of_kept? (Frame.kept?_of_owned? (Option.mem_toList.mp howned)))

theorem mem_scopes_of_acquired (h : p.acquire? f = some (a, q)) (hc : c ∈ q.scopes) :
    c ∈ p.scopes := by
  have hcount := count_acquire? h c
  have hpos := List.count_pos_iff.mpr hc
  exact List.count_pos_iff.mp (by omega)

end Pool

/-! ## Places -/

namespace Pooling

/-- How many places will hand a scope out or give it back: the free lists in which it is, and the frames
that own it. -/
def places (p : Pool) (frames : List Frame) (c : Nat) : Nat :=
  p.scopes.count c + (frames.filterMap Frame.owned?).count c

/-- A scope is idle, or a call runs in it. -/
def Pools (p : Pool) (frames : List Frame) (c : Nat) : Prop :=
  c ∈ p.scopes ∨ ∃ f ∈ frames, f.scope? = some c

/-- The scope is known, and directly inside another. -/
structure Inside (scopes : Array TreeScript.Scope) (outer c : Nat) : Prop where
  lt : c < scopes.size
  ancestors : (scopes.getD c default).ancestors = [outer]

/-- The scopes of a pool are owned: each is in one place at most, and a child of the root. -/
structure Owned (limit : Nat) (scopes : Array TreeScript.Scope) (root : Nat) (p : Pool)
    (frames : List Frame) : Prop where
  once : ∀ c, places p frames c ≤ 1
  short : p.Short limit
  root_lt : root < scopes.size
  root_ancestors : (scopes.getD root default).ancestors = []
  inside : ∀ c, Pools p frames c → Inside scopes root c

/-- Scopes stay inside the scopes in which they were made. -/
structure Stays (scopes scopes' : Array TreeScript.Scope) : Prop where
  size : scopes.size ≤ scopes'.size
  ancestors : ∀ c < scopes.size,
    (scopes'.getD c default).ancestors = (scopes.getD c default).ancestors

section
variable {scopes scopes' scopes'' : Array TreeScript.Scope} {p q : Pool} {frames : List Frame}
variable {limit root c d : Nat} {f g : Frame}

theorem Stays.refl (scopes : Array TreeScript.Scope) : Stays scopes scopes :=
  ⟨Nat.le_refl _, fun _ _ => rfl⟩

theorem Stays.trans (h : Stays scopes scopes') (h' : Stays scopes' scopes'') :
    Stays scopes scopes'' where
  size := Nat.le_trans h.size h'.size
  ancestors c hc :=
    (h'.ancestors c (Nat.lt_of_lt_of_le hc h.size)).trans (h.ancestors c hc)

theorem stays_push (scopes : Array TreeScript.Scope) (s : TreeScript.Scope) :
    Stays scopes (scopes.push s) where
  size := by
    rw [Array.size_push]
    exact Nat.le_succ _
  ancestors c hc := by rw [getD_push_lt _ _ hc]

theorem stays_modify (scopes : Array TreeScript.Scope) (c : Nat)
    (f : Table String Nat → Table String Nat) : Stays scopes (scopes.modify c (rebind f)) where
  size := Nat.le_of_eq Array.size_modify.symm
  ancestors d _ := ancestors_modify scopes c d f

theorem stays_unbind (h : Heap) (c : Nat) (x : String) : Stays h.scopes (h.unbind c x).2.scopes := by
  unfold Heap.unbind
  split
  · exact stays_modify h.scopes _ fun bindings => bindings.erase x
  · exact .refl _

theorem Inside.stays (h : Inside scopes root c) (hs : Stays scopes scopes') :
    Inside scopes' root c :=
  ⟨Nat.lt_of_lt_of_le h.lt hs.size, (hs.ancestors c h.lt).trans h.ancestors⟩

theorem Owned.stays (h : Owned limit scopes root p frames) (hs : Stays scopes scopes') :
    Owned limit scopes' root p frames where
  once := h.once
  short := h.short
  root_lt := Nat.lt_of_lt_of_le h.root_lt hs.size
  root_ancestors := (hs.ancestors root h.root_lt).trans h.root_ancestors
  inside c hc := (h.inside c hc).stays hs

theorem places_cons (p : Pool) (f : Frame) (frames : List Frame) (c : Nat) :
    places p (f :: frames) c = places p frames c + f.owned?.toList.count c := by
  unfold places
  cases hf : f.owned? with
  | none => rw [List.filterMap_cons_none hf, Option.toList_none, List.count_nil, Nat.add_zero]
  | some a =>
    rw [List.filterMap_cons_some hf, count_cons, Option.toList_some]
    omega

/-- No scope is idle twice. -/
theorem Owned.nodup (h : Owned limit scopes root p frames) : p.scopes.Nodup :=
  List.nodup_iff_count.mpr fun c => Nat.le_trans (Nat.le_add_right _ _) (h.once c)

/-- A scope in some place is a scope of the pool. -/
theorem pools_of_places (h : 0 < places p frames c) : Pools p frames c := by
  by_cases hp : c ∈ p.scopes
  · exact Or.inl hp
  · unfold places at h
    rw [List.count_eq_zero_of_not_mem hp, Nat.zero_add] at h
    obtain ⟨f, hf, howned⟩ := List.mem_filterMap.mp (List.count_pos_iff.mp h)
    exact Or.inr ⟨f, hf, Frame.scope?_of_kept? (Frame.kept?_of_owned? howned)⟩

/-! ## Frames -/

/-- A frame begins whose scope, if it owns it, is in no other place. -/
theorem Owned.push (h : Owned limit scopes root p frames)
    (hfree : ∀ c, f.owned? = some c → places p frames c = 0)
    (hinside : ∀ c, f.scope? = some c → Inside scopes root c) :
    Owned limit scopes root p (f :: frames) where
  once c := by
    rw [places_cons]
    cases hf : f.owned? with
    | none => exact h.once c
    | some a =>
      by_cases hc : a = c
      · subst hc
        have hplaces := hfree a hf
        have hsingle : [a].count a = 1 := List.count_singleton_self
        rw [Option.toList_some]
        omega
      · rw [Option.toList_some, List.count_singleton, if_neg (by simpa using hc)]
        exact h.once c
  short := h.short
  root_lt := h.root_lt
  root_ancestors := h.root_ancestors
  inside c hc := by
    rcases hc with hc | ⟨g, hg, hc⟩
    · exact h.inside c (Or.inl hc)
    · rcases List.mem_cons.mp hg with rfl | hg
      · exact hinside c hc
      · exact h.inside c (Or.inr ⟨g, hg, hc⟩)

/-- Ownership passes to any pool and frames that have no more places for a scope, and no other scopes. -/
theorem Owned.passes {frames' : List Frame} (h : Owned limit scopes root p frames)
    (hplaces : ∀ c, places q frames' c ≤ places p frames c) (hshort : q.Short limit)
    (hpools : ∀ c, Pools q frames' c → Pools p frames c) : Owned limit scopes root q frames' where
  once c := Nat.le_trans (hplaces c) (h.once c)
  short := hshort
  root_lt := h.root_lt
  root_ancestors := h.root_ancestors
  inside c hc := h.inside c (hpools c hc)

/-- The place of a frame passes to the pool: the frame ends, or goes on without its scope. -/
theorem Owned.leave (h : Owned limit scopes root p (f :: frames)) :
    Owned limit scopes root (p.leave f) frames := by
  refine h.passes (fun c => ?_) (h.short.leave f) fun c hc => ?_
  · have hleave := p.count_leave f c
    rw [places_cons]
    unfold places
    omega
  · rcases hc with hc | ⟨g, hg, hc⟩
    · exact (Pool.mem_scopes_of_leave hc).imp_right fun hc => ⟨f, List.mem_cons_self, hc⟩
    · exact Or.inr ⟨g, List.mem_cons_of_mem f hg, hc⟩

/-- A frame loses its scope: nobody will give it back. -/
theorem Owned.pop (h : Owned limit scopes root p (f :: frames)) :
    Owned limit scopes root p frames := by
  refine h.passes (fun c => ?_) h.short fun c hc => ?_
  · rw [places_cons]
    exact Nat.le_add_right _ _
  · exact hc.imp_right fun ⟨g, hg, hc⟩ => ⟨g, List.mem_cons_of_mem f hg, hc⟩

theorem Owned.release (h : Owned limit scopes root p (f :: frames)) :
    Owned limit scopes root (p.leave f) (f.release :: frames) := by
  refine h.leave.push (fun c hc => ?_) fun c hc => ?_
  · rw [Frame.owned?_release] at hc
    cases hc
  · exact h.inside c (Or.inr ⟨f, List.mem_cons_self, (Frame.scope?_release f).symm.trans hc⟩)

theorem Owned.retain (h : Owned limit scopes root p (f :: frames)) :
    Owned limit scopes root p (f.retain :: frames) := by
  refine h.pop.push (fun c hc => ?_) fun c hc => ?_
  · rw [Frame.owned?_retain] at hc
    cases hc
  · exact h.inside c (Or.inr ⟨f, List.mem_cons_self, (Frame.scope?_retain f).symm.trans hc⟩)

/-! ## Handing scopes out -/

/-- A new scope inside the root is in no place. -/
theorem Owned.newScope (h : Owned limit scopes root p frames) :
    Owned limit (scopes.push ⟨.empty, [root]⟩) root p frames ∧ places p frames scopes.size = 0 ∧
      Inside (scopes.push ⟨.empty, [root]⟩) root scopes.size := by
  refine ⟨h.stays (stays_push _ _), ?_, ?_, ?_⟩
  · refine Nat.eq_zero_of_not_pos fun hpos => ?_
    exact Nat.lt_irrefl _ (h.inside _ (pools_of_places hpos)).lt
  · rw [Array.size_push]
    exact Nat.lt_succ_self _
  · rw [getD_push_size]

/-- A scope that the pool hands out is in no place any more. -/
theorem Owned.acquire {function : Nat} (h : Owned limit scopes root p frames)
    (hacquire : p.acquire? function = some (c, q)) :
    Owned limit (scopes.modify c (rebind fun _ => .empty)) root q frames ∧ places q frames c = 0 ∧
      Inside (scopes.modify c (rebind fun _ => .empty)) root c := by
  have hcount : ∀ d, places q frames d + [c].count d ≤ places p frames d := by
    intro d
    have hd := Pool.count_acquire? hacquire d
    unfold places
    omega
  have hq : Owned limit scopes root q frames :=
    h.passes (fun d => Nat.le_of_add_right_le (hcount d)) (h.short.acquire? hacquire)
      fun _ hd => hd.imp_left (Pool.mem_scopes_of_acquired hacquire)
  refine ⟨hq.stays (stays_modify _ _ _), ?_, ?_⟩
  · have honce := h.once c
    have hc := hcount c
    rw [List.count_singleton_self] at hc
    omega
  · exact (h.inside c (Or.inl (Pool.mem_scopes_of_acquire? hacquire))).stays (stays_modify _ _ _)

end
end Pooling

/-! ## States -/

/-- The pooled scopes of a state are owned. -/
def State.Owned (limit : Nat) (s : State) : Prop :=
  Pooling.Owned limit s.heap.scopes s.session.root s.session.pool s.session.frames

namespace State.Owned

variable {limit c : Nat} {s t : State} {function : Option Nat} {ev : Evaluator}

/-- **Acquired scopes are free.**  A scope that is handed out to a call is in no place, is a child of the
root, and binds nothing; the scope goes to the frame of the call. -/
theorem acquireScope (h : s.Owned limit) (hacquire : Exec.acquireScope function ev s = (.value c, t)) :
    t.Owned limit ∧ Pooling.places t.session.pool t.session.frames c = 0 ∧
      Pooling.Inside t.heap.scopes t.session.root c := by
  have hnew : (s.heap.newScope s.session.root).2.scopes =
      s.heap.scopes.push ⟨.empty, [s.session.root]⟩ := by
    show s.heap.scopes.push ⟨.empty, s.session.root :: (s.heap.scope s.session.root).ancestors⟩ = _
    rw [show (s.heap.scope s.session.root).ancestors = [] from h.root_ancestors]
  have hfresh := Pooling.Owned.newScope h
  rw [← hnew] at hfresh
  cases function with
  | none =>
    rw [acquireScope_none] at hacquire
    cases hacquire
    exact hfresh
  | some slot =>
    rw [acquireScope_some] at hacquire
    cases hpool : s.session.pool.acquire? slot with
    | none =>
      rw [hpool] at hacquire
      cases hacquire
      exact hfresh
    | some found =>
      obtain ⟨scope, pool⟩ := found
      rw [hpool] at hacquire
      cases hacquire
      exact Pooling.Owned.acquire h hpool

/-- The frame of a call begins, in the scope that has been handed out. -/
theorem callScope (h : s.Owned limit) (hacquire : Exec.acquireScope function ev s = (.value c, t)) :
    (t.withFrames (.pooled function c false false :: t.session.frames)).Owned limit := by
  obtain ⟨ht, hfree, hinside⟩ := h.acquireScope hacquire
  refine Pooling.Owned.push ht (fun d hd => ?_) fun d hd => ?_
  · cases function <;> cases hd
    exact hfree
  · cases hd
    exact hinside

theorem barrier (h : s.Owned limit) : (s.withFrames (.barrier :: s.session.frames)).Owned limit :=
  Pooling.Owned.push h nofun nofun

theorem of_frames (h : s.Owned limit) {f : Frame} {rest : List Frame}
    (hframes : s.session.frames = f :: rest) :
    Pooling.Owned limit s.heap.scopes s.session.root s.session.pool (f :: rest) := by
  rw [← hframes]
  exact h

/-- The innermost frame ends. -/
theorem leaveFrame (h : s.Owned limit) : (leaveFrame s).Owned limit := by
  cases hframes : s.session.frames with
  | nil =>
    rw [show Exec.leaveFrame s = s by
      unfold Exec.leaveFrame Session.popFrame
      rw [hframes]
      rfl]
    exact h
  | cons f rest =>
    rw [show Exec.leaveFrame s = s.withSession
      { s.session with frames := rest, pool := s.session.pool.leave f } from
        congrArg s.withSession (Session.popFrame_eq hframes)]
    exact (h.of_frames hframes).leave

/-- The scope of the innermost frame is left early. -/
theorem release (h : s.Owned limit) : (s.withSession s.session.releaseFrame).Owned limit := by
  cases hframes : s.session.frames with
  | nil =>
    rw [Session.releaseFrame_nil hframes]
    exact h
  | cons f rest =>
    rw [Session.releaseFrame_eq hframes]
    exact (h.of_frames hframes).release

/-- The scope of the innermost frame is captured. -/
theorem retain (h : s.Owned limit) : (s.withSession s.session.retainFrame).Owned limit := by
  cases hframes : s.session.frames with
  | nil =>
    rw [Session.retainFrame_nil hframes]
    exact h
  | cons f rest =>
    rw [Session.retainFrame_eq hframes]
    exact (h.of_frames hframes).retain

end State.Owned

/-- In every state a scope is handed out, which binds nothing. -/
theorem Exec.bindings_acquireScope (function : Option Nat) (s : State) :
    ∃ c t, (∀ ev, acquireScope function ev s = (.value c, t)) ∧
      (t.heap.scope c).bindings = .empty := by
  have hnew : ((s.heap.newScope s.session.root).2.scope s.heap.scopes.size).bindings = .empty := by
    rw [Heap.scope, Heap.newScope, getD_push_size]
  cases function with
  | none => exact ⟨_, _, fun ev => acquireScope_none ev s, hnew⟩
  | some slot =>
    simp only [acquireScope_some]
    cases s.session.pool.acquire? slot with
    | none => exact ⟨_, _, fun _ => rfl, hnew⟩
    | some found =>
      refine ⟨_, _, fun _ => rfl, ?_⟩
      show ((s.heap.clear found.1).scope found.1).bindings = _
      rw [Heap.scope, Heap.clear, getD_modify]
      split
      · rfl
      · rename_i hc
        rw [getD_of_size_le (Nat.le_of_not_lt fun hlt => hc ⟨rfl, hlt⟩)]
        rfl

/-! ## Ownership as an invariant -/

/-- The pooled scopes are owned, the scopes of a heap stay where they are, and the root is the same. -/
def Invariant.owned (limit : Nat) : Invariant where
  World := Array TreeScript.Scope × Nat
  le w w' := w' = w
  holds w s := Pooling.Stays w.1 s.heap.scopes ∧ s.session.root = w.2 ∧ s.Owned limit
  way _ _ := True
  fits _ _ := True
  enters w w₁ := w₁ = w

namespace Invariant

variable {limit : Nat}

/-- The scopes of a later state stay where they are. -/
theorem owned_scopes {w : Array TreeScript.Scope × Nat} {s : State} {h : Heap}
    (hs : (Invariant.owned limit).holds w s) (hstays : Pooling.Stays s.heap.scopes h.scopes) :
    (Invariant.owned limit).holds w (s.withHeap h) :=
  ⟨hs.1.trans hstays, hs.2.1, Pooling.Owned.stays hs.2.2 hstays⟩

/-- The root of a session stays when the innermost frame changes. -/
theorem owned_session {w : Array TreeScript.Scope × Nat} {s : State} {session : Session}
    (hs : (Invariant.owned limit).holds w s) (hroot : session.root = s.session.root)
    (howned : (s.withSession session).Owned limit) :
    (Invariant.owned limit).holds w (s.withSession session) :=
  ⟨hs.1, hroot.trans hs.2.1, howned⟩

theorem root_releaseFrame (s : Session) : s.releaseFrame.root = s.root := by
  unfold Session.releaseFrame
  split <;> rfl

theorem root_retainFrame (s : Session) : s.retainFrame.root = s.root := by
  unfold Session.retainFrame
  split <;> rfl

theorem root_popFrame (s : Session) : s.popFrame.root = s.root := by
  unfold Session.popFrame Session.leave
  split
  · split <;> rfl
  · rfl

theorem owned_operations : (Invariant.owned limit).Operations where
  withStores hs _ := hs
  setValue hs _ _ _ := hs
  withHeld _ hs := hs
  newScope _ hs := owned_scopes hs (Pooling.stays_push _ _)
  declareSlot c x _ hs _ := owned_scopes hs (Pooling.stays_modify _ c fun bindings => bindings.insert x _)
  unbind c x hs := owned_scopes hs (Pooling.stays_unbind _ c x)
  retain {w _} hs := ⟨w, rfl, owned_session hs (root_retainFrame _) (State.Owned.retain hs.2.2)⟩
  release {w _} hs := ⟨w, rfl, owned_session hs (root_releaseFrame _) (State.Owned.release hs.2.2)⟩
  addObject _ hs := hs
  callable _ _ _ := fun _ _ _ _ => trivial
  addCallable hs _ := hs
  addCoroutine _ hs _ _ _ := hs
  allows _ _ _ := fun _ _ _ _ => trivial
  addFunction hs _ := hs
  withClasses _ hs := hs
  reserve _ hs := hs
  remember _ _ hs _ := hs
  parsed _ _ _ _ _ := trivial
  withMeter _ hs := hs
  withOutput _ hs := hs
  withCancellation _ hs := hs
  nextFrame {w _ _ _} hs _ _ := ⟨w, rfl, hs⟩
  forget {w _} hs _ := ⟨w, rfl, hs⟩
  way_yield _ := trivial
  way_cons _ _ _ := trivial

/-- A frame that ends leaves the pooled scopes owned. -/
theorem owned_returns {w : Array TreeScript.Scope × Nat} {back : State → State}
    (hback : ∀ t : State, (back t).heap.scopes = t.heap.scopes ∧
      (back t).session.root = t.session.root ∧ (back t).session.pool = t.session.pool ∧
      (back t).session.frames = t.session.frames) :
    (Invariant.owned limit).Returns w w fun t => back (leaveFrame t) := by
  rintro w₂ t rfl ⟨hstays, hroot, howned⟩
  obtain ⟨hscopes, hroot', hpool, hframes⟩ := hback (leaveFrame t)
  refine ⟨w₂, rfl, ⟨?_, ?_, ?_⟩, id⟩
  · rw [hscopes]
    exact hstays
  · rw [hroot', ← hroot]
    exact root_popFrame t.session
  · show Pooling.Owned _ _ _ _ _
    rw [hscopes, hroot', hpool, hframes]
    exact howned.leaveFrame

theorem owned_boundaries : (Invariant.owned limit).Boundaries where
  call {w s name calls} hs _ :=
    ⟨w, ⟨fun h => h, fun h => h, fun h => h⟩, ⟨hs, id⟩,
      fun w₂ _ hle ht => ⟨w₂, hle, ht, id, fun _ h => h⟩⟩
  barrier {w s} hs :=
    ⟨w, rfl, ⟨⟨hs.1, hs.2.1, State.Owned.barrier hs.2.2⟩, id⟩,
      owned_returns fun _ => ⟨rfl, rfl, rfl, rfl⟩⟩
  callScope {w s function c t} hs _ hacquire := by
    have hacquire := hacquire (.untraced 0 fun _ _ s => (.halted .outOfFuel, s))
    have howned := State.Owned.callScope hs.2.2 hacquire
    obtain ⟨pool, m, heap, rfl, hheap⟩ := acquireScope_state hacquire
    refine ⟨w, rfl, ⟨⟨?_, hs.2.1, howned⟩, id⟩, owned_returns fun _ => ⟨rfl, rfl, rfl, rfl⟩⟩
    rcases hheap with rfl | rfl
    · exact hs.1.trans (Pooling.stays_push _ _)
    · exact hs.1.trans (Pooling.stays_modify _ c fun _ => .empty)
  aside {w s} hs _ :=
    ⟨w, fun _ h => h, ⟨hs, id⟩, fun w₂ _ hle ht => ⟨w₂, hle, ht, id, fun _ h => h⟩⟩
  resumed {w s i frames running} hs _ :=
    ⟨w, rfl, ⟨⟨hs.1, hs.2.1, State.Owned.barrier hs.2.2⟩, id⟩,
      owned_returns fun _ => ⟨rfl, rfl, rfl, rfl⟩, fun w₂ t fs hle ht _ => by
        let back (t : State) := suspendCoroutine i fs (t.withResume s.session.resume)
        have hback : ∀ t : State, (back t).heap.scopes = t.heap.scopes ∧
            (back t).session.root = t.session.root ∧ (back t).session.pool = t.session.pool ∧
            (back t).session.frames = t.session.frames := fun _ => ⟨rfl, rfl, rfl, rfl⟩
        exact owned_returns hback w₂ t hle ht⟩

theorem owned_untyped : (Invariant.owned limit).Untyped where
  suits _ _ _ := trivial
  typed _ _ _ := trivial
  writable _ _ := trivial

/-- **Evaluations keep pooled scopes owned.** -/
theorem owned_upheld (limit : Nat) : (Invariant.owned limit).Upheld where
  le_refl _ := rfl
  le_trans h h' := h'.trans h
  way_mono _ _ := trivial
  fits_mono _ _ := trivial
  marked_mono _ h := h
  fits_part _ _ := trivial
  enters_fits _ _ := trivial
  toTypes := owned_untyped.types fun _ => rfl
  toOperations := owned_operations
  toBoundaries := owned_boundaries

end Invariant

section
variable {limit : Nat} {alarm : State → Bool} (halarm : ∀ t : State, t.Owned limit → alarm t = false)
variable (react : Exec Unit)
include halarm

/-- A top-level evaluation keeps the pooled scopes owned at every moment. -/
theorem Exec.owned_run {x : Exec Value} (hx : Simulation.Fair x) (fuel : Nat) {s : State}
    (hs : s.Owned limit) :
    x (observed alarm react fuel) s = x (evaluator fuel) s ∧
      Pooling.Stays s.heap.scopes (x (evaluator fuel) s).2.heap.scopes ∧
      (x (evaluator fuel) s).2.session.root = s.session.root ∧
      (x (evaluator fuel) s).2.Owned limit := by
  have K := Invariant.owned_upheld limit
  have R := Invariant.ready_observed K (fun _ h => h) (fun _ t ht => halarm t ht.2.2) react fuel
  have hends := hx _ K.lawful R (w := (s.heap.scopes, s.session.root)) trivial (fun _ => trivial) s s
    (Invariant.rel_self ⟨.refl _, rfl, hs⟩)
  rcases Invariant.eq_of_ends (fun _ h => h) hends with ⟨hlax, _⟩ | ⟨heq, w, hw, ht, _⟩
  · exact hlax.elim
  · cases hw
    exact ⟨heq.symm, ht⟩

end

/-! ## Histories -/

namespace Host

/-- The pooled scopes of all sessions are owned, and each session has a root of its own. -/
structure Owned (limit : Nat) (host : Host) : Prop where
  session : ∀ (k : Nat) (s : Session), host.sessions[k]? = some s →
    Pooling.Owned limit host.heap.scopes s.root s.pool s.frames
  roots : ∀ (j k : Nat) (s t : Session), host.sessions[j]? = some s → host.sessions[k]? = some t →
    s.root = t.root → j = k

variable {limit : Nat} {host : Host}

/-- A scope is pooled in one session only. -/
theorem Owned.apart (h : host.Owned limit) {j k c : Nat} {s t : Session}
    (hs : host.sessions[j]? = some s) (ht : host.sessions[k]? = some t)
    (hcs : Pooling.Pools s.pool s.frames c) (hct : Pooling.Pools t.pool t.frames c) : j = k := by
  have hins := (h.session j s hs).inside c hcs
  have hint := (h.session k t ht).inside c hct
  have hroots : [s.root] = [t.root] := hins.ancestors.symm.trans hint.ancestors
  exact h.roots j k s t hs ht (List.singleton_inj.mp hroots)

/-- A session changes, but neither its root nor what it has pooled. -/
theorem Owned.change (h : host.Owned limit) (k : Nat) {m : Session → Session}
    (hm : ∀ s, (m s).root = s.root ∧ (m s).pool = s.pool ∧ (m s).frames = s.frames) :
    (host.change k m).Owned limit := by
  have hsession : ∀ (j : Nat) (t : Session), (host.change k m).sessions[j]? = some t →
      ∃ s, host.sessions[j]? = some s ∧ t.root = s.root ∧ t.pool = s.pool ∧ t.frames = s.frames := by
    intro j t ht
    simp only [Host.change, Array.getElem?_modify] at ht
    split at ht
    · obtain ⟨s, hs, rfl⟩ := Option.map_eq_some_iff.mp ht
      exact ⟨s, hs, hm s⟩
    · exact ⟨t, ht, rfl, rfl, rfl⟩
  refine ⟨fun j t ht => ?_, fun i j t u ht hu heq => ?_⟩
  · obtain ⟨s, hs, hroot, hpool, hframes⟩ := hsession j t ht
    rw [hroot, hpool, hframes]
    exact h.session j s hs
  · obtain ⟨s, hs, hroot, _⟩ := hsession i t ht
    obtain ⟨r, hr, hroot', _⟩ := hsession j u hu
    exact h.roots i j s r hs hr (hroot.symm.trans (heq.trans hroot'))

/-- A new session has nothing pooled, and a new root. -/
theorem Owned.start (h : host.Owned limit) {settings : Settings}
    (hlimit : settings.poolCapacity ≤ limit) : (host.start settings).Owned limit := by
  have hstays := Pooling.stays_push host.heap.scopes ⟨.empty, []⟩
  have hsession : ∀ (k : Nat) (t : Session), (host.start settings).sessions[k]? = some t →
      (t.root = host.heap.scopes.size ∧ t.pool = .empty settings.poolCapacity ∧ t.frames = [] ∧
        k = host.sessions.size) ∨ host.sessions[k]? = some t := by
    intro k t ht
    rcases of_getElem?_start ht with ht | ⟨hk, rfl⟩
    · exact Or.inr ht
    · exact Or.inl ⟨Session.new_eq (p := Session.root) (fun _ _ _ => rfl) _ _ _,
        Session.new_eq (p := Session.pool) (fun _ _ _ => rfl) _ _ _,
        Session.new_eq (p := Session.frames) (fun _ _ _ => rfl) _ _ _, hk⟩
  -- the root is a new scope, so no other session works in it
  have hlt : ∀ (k : Nat) (t : Session), host.sessions[k]? = some t → t.root ≠ host.heap.scopes.size :=
    fun k t ht => Nat.ne_of_lt (h.session k t ht).root_lt
  refine ⟨fun k t ht => ?_, fun j k s t hs ht heq => ?_⟩
  · rcases hsession k t ht with ⟨hroot, hpool, hframes, _⟩ | ht
    · rw [hroot, hpool, hframes]
      refine ⟨fun c => Nat.zero_le 1, ⟨hlimit, nofun⟩, ?_, ?_, ?_⟩
      · show _ < (host.heap.scopes.push _).size
        rw [Array.size_push]
        exact Nat.lt_succ_self _
      · show Scope.ancestors ((host.heap.scopes.push ⟨.empty, []⟩).getD _ default) = []
        rw [getD_push_size]
      · rintro c (hc | ⟨f, hf, _⟩)
        · cases hc
        · cases hf
    · exact (h.session k t ht).stays hstays
  · rcases hsession j s hs with ⟨hroot, _, _, hj⟩ | hs <;>
      rcases hsession k t ht with ⟨hroot', _, _, hk⟩ | ht
    · exact hj.trans hk.symm
    · exact absurd (heq.symm.trans hroot) (hlt k t ht)
    · exact absurd (heq.trans hroot') (hlt j s hs)
    · exact h.roots j k s t hs ht heq

section
variable {alarm : State → Bool} (halarm : ∀ t : State, t.Owned limit → alarm t = false)
variable (react : Exec Unit)
include halarm

/-- An evaluation in a session leaves what the other sessions have pooled where it is. -/
theorem Owned.run (h : host.Owned limit) {x : Exec Value} (hx : Simulation.Fair x) (k fuel : Nat) :
    host.runWith k (observed alarm react fuel) x = host.runWith k (evaluator fuel) x ∧
      (host.runWith k (evaluator fuel) x).2.Owned limit := by
  unfold runWith
  cases hs : host.sessions[k]? with
  | none => exact ⟨rfl, h⟩
  | some s =>
    have howned : State.Owned limit ⟨host.heap, host.sites, [], s⟩ := h.session k s hs
    obtain ⟨heq, hstays, hroot, ht⟩ := owned_run halarm react hx fuel howned
    dsimp only
    refine ⟨by rw [heq], fun j t htj => ?_, fun i j t u hti huj hroots => ?_⟩
    · rw [getElem?_setSession _ hs] at htj
      split at htj
      · cases htj
        exact ht
      · exact (h.session j t htj).stays hstays
    · -- every session has the root that it had before
      have hbefore : ∀ (j : Nat) (t : Session), (host.sessions.setIfInBounds k
          (x (evaluator fuel) ⟨host.heap, host.sites, [], s⟩).2.session)[j]? = some t →
          ∃ t', host.sessions[j]? = some t' ∧ t.root = t'.root := by
        intro j t htj
        rw [getElem?_setSession _ hs] at htj
        split at htj
        · rename_i hkj
          cases htj
          exact ⟨s, hkj ▸ hs, hroot⟩
        · exact ⟨t, htj, rfl⟩
      obtain ⟨t', ht', hroot⟩ := hbefore i t hti
      obtain ⟨u', hu', hroot'⟩ := hbefore j u huj
      exact h.roots i j t' u' ht' hu' (hroot.symm.trans (hroots.trans hroot'))

theorem Owned.answer (h : host.Owned limit) (fuel : Nat → Nat) {r : Request}
    (hr : ∀ settings, r = .start settings → settings.poolCapacity ≤ limit) :
    host.answer (fun k => observed alarm react (fuel k)) r =
        host.answer (fun k => evaluator (fuel k)) r ∧
      (host.answer (fun k => evaluator (fuel k)) r).2.Owned limit := by
  cases r with
  | start settings => exact ⟨rfl, h.start (hr settings rfl)⟩
  | prepare n => exact ⟨rfl, h.session, h.roots⟩
  | evaluate k e => exact h.run halarm react (Simulation.fair_evaluate e) k (fuel k)
  | callFunction k name args =>
    exact h.run halarm react (Simulation.fair_callFunction name args) k (fuel k)
  | addFunction k _ | removeFunction k _ _ | setParser k _ | cancel k _ | takeOutput k =>
    exact ⟨rfl, h.change k fun _ => ⟨rfl, rfl, rfl⟩⟩

theorem Owned.serve (h : host.Owned limit) (fuel : Nat → Nat) (rs : List Request)
    (hrs : ∀ settings, Request.start settings ∈ rs → settings.poolCapacity ≤ limit) :
    host.serve (fun k => observed alarm react (fuel k)) rs =
        host.serve (fun k => evaluator (fuel k)) rs ∧
      (host.serve (fun k => evaluator (fuel k)) rs).2.Owned limit := by
  induction rs generalizing host with
  | nil => exact ⟨rfl, h⟩
  | cons r rs ih =>
    obtain ⟨heq, hnext⟩ := h.answer halarm react fuel (r := r)
      fun settings hr => hrs settings (hr ▸ List.mem_cons_self)
    obtain ⟨hrest, hlast⟩ := ih hnext fun settings hr => hrs settings (List.mem_cons_of_mem r hr)
    refine ⟨?_, hlast⟩
    rw [Host.serve, Host.serve, heq]
    dsimp only
    rw [hrest]

end

theorem owned_empty (limit : Nat) : Host.empty.Owned limit := by
  constructor
  · intro k s h
    cases h
  · intro j k s t h
    cases h

end Host

/-! ## Pooled scopes have one owner -/

/-- **Pooled scopes have one owner.**  At every moment of a history, and after it, a scope is idle for one
function, or owned by one frame, or neither; no function has more idle scopes than a session may keep for
it; and every scope that is idle or in which a call runs is a child of the root.  So no scope is idle
twice, and none is pooled in two sessions.  Between two moments this is kept by all that changes the pool
and the frames.  A scope that is handed out to a call binds nothing. -/
theorem pooled_scopes_owned (limit : Nat) (fuel : Nat → Nat) (rs : List Request)
    (hrs : ∀ settings, Request.start settings ∈ rs → settings.poolCapacity ≤ limit) :
    let last := (Host.empty.serve (fun k => evaluator (fuel k)) rs).2
    (∀ alarm react, (∀ t : State, t.Owned limit → alarm t = false) →
      Host.empty.serve (fun k => observed alarm react (fuel k)) rs =
        Host.empty.serve (fun k => evaluator (fuel k)) rs) ∧
    last.Owned limit ∧
    (∀ (j k c : Nat) (s t : Session), last.sessions[j]? = some s → last.sessions[k]? = some t →
      Pooling.Pools s.pool s.frames c → Pooling.Pools t.pool t.frames c → j = k) ∧
    (∀ s : State, s.Owned limit → s.session.pool.scopes.Nodup ∧
      (∀ function ev c t, acquireScope function ev s = (.value c, t) → t.Owned limit ∧
        Pooling.places t.session.pool t.session.frames c = 0 ∧
        (t.withFrames (.pooled function c false false :: t.session.frames)).Owned limit) ∧
      (s.withFrames (.barrier :: s.session.frames)).Owned limit ∧ (leaveFrame s).Owned limit ∧
      (s.withSession s.session.releaseFrame).Owned limit ∧
      (s.withSession s.session.retainFrame).Owned limit) ∧
    ∀ function (s : State), ∃ c t, (∀ ev, acquireScope function ev s = (.value c, t)) ∧
      (t.heap.scope c).bindings = .empty := by
  intro last
  have hserve := fun (alarm : State → Bool) react
      (halarm : ∀ t : State, t.Owned limit → alarm t = false) =>
    (Host.owned_empty limit).serve halarm react fuel rs hrs
  obtain ⟨-, hlast⟩ := hserve (fun _ => false) (pure ()) fun _ _ => rfl
  refine ⟨fun alarm react halarm => (hserve alarm react halarm).1, hlast, ?_, ?_,
    bindings_acquireScope⟩
  · exact fun j k c s t hs ht hcs hct => hlast.apart hs ht hcs hct
  · intro s hs
    refine ⟨Pooling.Owned.nodup hs, fun function ev c t hacquire => ?_, hs.barrier, hs.leaveFrame,
      hs.release, hs.retain⟩
    obtain ⟨ht, hfree, -⟩ := hs.acquireScope hacquire
    exact ⟨ht, hfree, hs.callScope hacquire⟩

/-- A function that ends in a call of itself, and is called. -/
def handOver : List Request :=
  [.start Host.bare, .prepare 2,
    .evaluate 0 (.functionDef ⟨"f", [⟨"again", .bool⟩], .any,
      .branch [(.var "again", .returnWith (some (.call 0 "f" [.literal (.bool false)])))] none, false⟩),
    .evaluate 0 (.call 1 "f" [.literal (.bool true)])]

/-- The scope that the caller has left early, and in which the callee has run, is idle once afterwards. -/
theorem pooled_scopes_owned_handOver :
    let last := (Host.empty.serve (fun _ => evaluator 9) handOver).2
    (∀ settings, Request.start settings ∈ handOver → settings.poolCapacity ≤ 64) ∧
      last.Owned 64 ∧ last.sessions.toList.map (·.pool.scopes) = [[1]] := by
  intro last
  have hrs : ∀ settings, Request.start settings ∈ handOver → settings.poolCapacity ≤ 64 := by
    intro settings h
    simp only [handOver, List.mem_cons, Request.start.injEq, List.not_mem_nil, or_false,
      reduceCtorEq] at h
    rw [h]
    exact Nat.le_refl 64
  obtain ⟨_, hlast, _⟩ := pooled_scopes_owned 64 (fun _ => 9) handOver hrs
  exact ⟨hrs, hlast, by decide +kernel⟩

end TreeScript
