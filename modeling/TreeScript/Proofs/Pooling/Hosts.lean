import TreeScript.Proofs.Pooling.Handlers
import TreeScript.Proofs.Sessions

/-
# Histories with and without pools

Two hosts are asked the same, but the sessions of the second are started without a pool.  What is idle
in one session of the first is reserved for it while another session runs.  As long as no handler
begins in a call that has left its scope early, the two hosts answer alike, and what they hold differs
in the numbers of scopes only.
-/

namespace TreeScript

/-! ## Sessions in other places -/

namespace Session

/-- The session with another scope of global variables and another pool. -/
def place (s : Session) (root : Nat) (pool : Pool) : Session := { s with root := root, pool := pool }

variable (root : Nat) (pool : Pool)

theorem foldl_addFunction_place {α : Type} (f : α → Function) (items : List α) (s : Session) :
    items.foldl (fun s a => s.addFunction (f a)) (s.place root pool) =
      (items.foldl (fun s a => s.addFunction (f a)) s).place root pool := by
  induction items generalizing s with
  | nil => rfl
  | cons a items ih => exact ih (s.addFunction (f a))

theorem addClass_place (s : Session) (c : ClassDef) :
    (s.place root pool).addClass c = (s.addClass c).map (·.place root pool) := by
  unfold addClass
  have hclasses : (s.place root pool).classes = s.classes := rfl
  rw [hclasses]
  split
  · rfl
  · exact congrArg Except.ok (foldl_addFunction_place root pool (fun g => g) (constructorsOf c)
      { s with classes := s.classes.insert c.name c })

theorem addExceptionClass_place (s : Session) :
    (s.place root pool).addExceptionClass = s.addExceptionClass.place root pool := by
  unfold addExceptionClass
  split
  · rw [addClass_place]
    cases s.addClass _ <;> rfl
  · rfl

/-- What a new session is besides its place comes from its number and its settings. -/
theorem new_place (id root : Nat) (settings : Settings) :
    Session.new id root settings =
      (Session.new id 0 { settings with poolCapacity := 0 }).place root
        (.empty settings.poolCapacity) := by
  have hblank : Session.blank id root settings =
      (Session.blank id 0 { settings with poolCapacity := 0 }).place root
        (.empty settings.poolCapacity) := rfl
  unfold Session.new
  dsimp only
  rw [hblank, addExceptionClass_place]
  split
  · exact foldl_addFunction_place root _ Function.core _ _
  · rfl

end Session

namespace Pooling

open Exec

/-! ## Hosts -/

/-- The scopes that are idle in other sessions than one, with the scopes of their global variables. -/
def Reserved (sessions : Array Session) (k c r : Nat) : Prop :=
  ∃ j s f, j ≠ k ∧ sessions[j]? = some s ∧ c ∈ s.pool.idle f ∧ r = s.root

/-- The left host uses scopes again, and the right one does not. -/
structure Hosts (w : World) (host host' : Host) : Prop extends Storage w host.heap host'.heap where
  frames : w.frames = []
  first : (w.size = 0 ∧ host.heap.scopes.size = 0) ∨ w.Pinned 0 0
  sites : host.sites = host'.sites
  count : host.sessions.size = host'.sessions.size
  session : ∀ {k s s'}, host.sessions[k]? = some s → host'.sessions[k]? = some s' →
    Rel (Reserved host.sessions k) w ⟨host.heap, host.sites, [], s⟩ ⟨host'.heap, host'.sites, [], s'⟩

variable {w w' : World} {host host' : Host}

/-- The world before anything has been started. -/
def World.nothing : World := ⟨0, id, fun _ => [], fun _ => False, []⟩

theorem hosts_empty : Hosts .nothing .empty .empty where
  alike := .refl _
  scopes := ⟨rfl, nofun, nofun, nofun, nofun, nofun, nofun⟩
  objects := nofun
  callables := nofun
  coroutines := nofun
  frames := rfl
  first := Or.inl ⟨rfl, rfl⟩
  sites := rfl
  count := rfl
  session h := by cases h

/-- Sessions of one host are sessions of the other. -/
theorem Hosts.session? (h : Hosts w host host') (k : Nat) :
    (host.sessions[k]? = none ∧ host'.sessions[k]? = none) ∨
      ∃ s s', host.sessions[k]? = some s ∧ host'.sessions[k]? = some s' := by
  by_cases hk : k < host.sessions.size
  · exact Or.inr ⟨_, _, Array.getElem?_eq_getElem hk, Array.getElem?_eq_getElem (h.count ▸ hk)⟩
  · refine Or.inl ⟨Array.getElem?_eq_none (Nat.le_of_not_lt hk), Array.getElem?_eq_none ?_⟩
    rw [← h.count]
    exact Nat.le_of_not_lt hk

/-! ## Another session runs -/

/-- A session is as it was when another one has run. -/
theorem Rel.beside {reserved reserved' : Nat → Nat → Prop} {t t' u u' : State}
    (hu : Rel reserved w u u') (hle : w.Le w') (hframes : w.frames = []) (hw : w'.frames = [])
    (hstorage : Storage w' t.heap t'.heap) (hsites : t.sites = t'.sites)
    (hpooled : Pooled reserved' w' t.heap.scopes u.session.root u.session.pool) :
    Rel reserved' w' ⟨t.heap, t.sites, [], u.session⟩ ⟨t'.heap, t'.sites, [], u'.session⟩ :=
  have hpinned : ∀ {c c'}, w.Pinned c c' → w'.Pinned c c' := hle.unwound.pinned
  { hu with
    toStorage := hstorage
    origin := hpinned hu.origin
    sites := hsites
    held := rfl
    root := hpinned hu.root
    rootAround := (hle.around _ hu.root.lt).trans hu.rootAround
    resume := hu.resume.imp fun _ _ => ResumeFrame.Alike.mono hpinned
    frames := by
      show u.session.frames = _
      rw [hu.frames, hframes, hw]
      rfl
    frames' := by
      show u'.session.frames = _
      rw [hu.frames', hframes, hw]
    known := fun f hf => by
      rw [hw] at hf
      cases hf
    kept := fun f hf => by
      rw [hw] at hf
      cases hf
    distinct := by
      rw [hw]
      exact List.nodup_nil
    pooled := hpooled }

theorem World.Le.frames_nil (h : w.Le w') (hw : w.frames = []) : w'.frames = [] := by
  have hrunning := h.frames
  rw [hw] at hrunning
  generalize w'.frames = fs at hrunning
  cases hrunning
  rfl

/-- Less may be reserved. -/
theorem Rel.mono_reserved {reserved reserved' : Nat → Nat → Prop} {s s' : State}
    (h : Rel reserved w s s') (hreserved : ∀ {c r}, reserved' c r → reserved c r) :
    Rel reserved' w s s' :=
  { h with
    pooled := ⟨h.pooled.idle, h.pooled.nodup, h.pooled.disjoint,
      fun hc hr => h.pooled.others hc (hreserved hr), fun hr => h.pooled.reserved (hreserved hr)⟩ }

/-- What is reserved for others does not hang on the session itself. -/
theorem reserved_of_set {sessions : Array Session} {k : Nat} {s t : Session}
    (hs : sessions[k]? = some s) {c r : Nat}
    (h : Reserved (sessions.setIfInBounds k t) k c r) : Reserved sessions k c r := by
  obtain ⟨j, u, f, hj, hu, hc, hr⟩ := h
  rw [Host.getElem?_setSession sessions hs, if_neg hj.symm] at hu
  exact ⟨j, u, f, hj, hu, hc, hr⟩

/-- The hosts are alike after the sessions of one number have run alike. -/
theorem Hosts.afterRun (h : Hosts w host host') {k : Nat} {s s' : Session}
    (hs : host.sessions[k]? = some s) (hs' : host'.sessions[k]? = some s') {t t' : State}
    (hle : w.Le w') (ht : Rel (Reserved host.sessions k) w' t t') :
    Hosts w' ⟨t.heap, t.sites, host.sessions.setIfInBounds k t.session⟩
      ⟨t'.heap, t'.sites, host'.sessions.setIfInBounds k t'.session⟩ := by
  have hw := hle.frames_nil h.frames
  refine ⟨ht.toStorage, hw, Or.inr ht.origin, ht.sites, ?_, fun {j u u'} hu hu' => ?_⟩
  · show (Array.setIfInBounds _ _ _).size = (Array.setIfInBounds _ _ _).size
    rw [Array.size_setIfInBounds, Array.size_setIfInBounds, h.count]
  · change (host.sessions.setIfInBounds k t.session)[j]? = some u at hu
    change (host'.sessions.setIfInBounds k t'.session)[j]? = some u' at hu'
    rw [Host.getElem?_setSession _ hs] at hu
    rw [Host.getElem?_setSession _ hs'] at hu'
    by_cases hj : k = j
    · -- the session that has run
      subst hj
      rw [if_pos rfl] at hu hu'
      cases hu
      cases hu'
      have hrel := ht.mono_reserved (reserved_of_set (t := t.session) hs)
      exact { hrel with held := rfl }
    · rw [if_neg hj] at hu hu'
      have hold := h.session hu hu'
      refine Rel.beside hold hle h.frames hw ht.toStorage ht.sites ?_
      have hreserved : ∀ {f c}, c ∈ u.pool.idle f → Reserved host.sessions k c u.root :=
        fun {f c} hc => ⟨j, u, f, fun heq => hj heq.symm, hu, hc, rfl⟩
      -- what is reserved for the others now is idle in the session that has run, or was before
      have hcases : ∀ {c r}, Reserved (host.sessions.setIfInBounds k t.session) j c r →
          (∃ f, c ∈ t.session.pool.idle f ∧ r = t.session.root) ∨
            Reserved host.sessions k c r ∧ Reserved host.sessions j c r := by
        rintro c r ⟨i, v, f, hi, hv, hc, hr⟩
        rw [Host.getElem?_setSession _ hs] at hv
        by_cases hki : k = i
        · rw [if_pos hki] at hv
          cases hv
          exact Or.inl ⟨f, hc, hr⟩
        · rw [if_neg hki] at hv
          exact Or.inr ⟨⟨i, v, f, fun heq => hki heq.symm, hv, hc, hr⟩, ⟨i, v, f, hi, hv, hc, hr⟩⟩
      refine ⟨fun hc => ht.pooled.reserved (hreserved hc), hold.pooled.nodup, hold.pooled.disjoint,
        fun hc hr => ?_, fun hr => ?_⟩
      · rcases hcases hr with ⟨f, hf, _⟩ | ⟨_, hr⟩
        · exact ht.pooled.others hf (hreserved hc)
        · exact hold.pooled.others hc hr
      · rcases hcases hr with ⟨f, hf, rfl⟩ | ⟨hr, _⟩
        · exact ht.pooled.idle hf
        · exact ht.pooled.reserved hr

/-- An evaluation in a session, as long as it is not stopped. -/
theorem Hosts.run (h : Hosts w host host') (k fuel : Nat) {x : Exec Value}
    (hx : Simulation.Fair x) (hjump : Jumpless x)
    (hstop : (host.runWith k (watched fuel) x).1.isOutOfFuel = false) :
    host.runWith k (watched fuel) x = host.runWith k (evaluator fuel) x ∧
      (host.runWith k (evaluator fuel) x).1 = (host'.runWith k (evaluator fuel) x).1 ∧
      ∃ w', Hosts w' (host.runWith k (evaluator fuel) x).2
        (host'.runWith k (evaluator fuel) x).2 := by
  unfold Host.runWith at hstop ⊢
  rcases h.session? k with ⟨hs, hs'⟩ | ⟨s, s', hs, hs'⟩
  · rw [hs] at hstop
    cases hstop
  · rw [hs] at hstop ⊢
    rw [hs']
    dsimp only at hstop ⊢
    have heq := watched_eq hx fuel ⟨host.heap, host.sites, [], s⟩
    have hends := ends_watched hx hjump fuel h.frames (h.session hs hs')
    rw [hstop] at heq hends
    have heq := heq.resolve_left Bool.false_ne_true
    obtain ⟨houtcome, w', hle, hrel⟩ := hends.resolve_left Bool.false_ne_true
    rw [heq] at houtcome hrel ⊢
    exact ⟨rfl, houtcome, w', h.afterRun hs hs' hle hrel⟩

/-! ## Between evaluations -/

/-- What is changed in a session from outside, if the two sides are alike afterwards. -/
theorem Hosts.change (h : Hosts w host host') (k : Nat) {m : Session → Session}
    (hpool : ∀ s, (m s).pool = s.pool) (hroot : ∀ s, (m s).root = s.root)
    (hrel : ∀ {reserved s s'}, Rel reserved w ⟨host.heap, host.sites, [], s⟩
        ⟨host'.heap, host'.sites, [], s'⟩ →
      Rel reserved w ⟨host.heap, host.sites, [], m s⟩ ⟨host'.heap, host'.sites, [], m s'⟩) :
    Hosts w (host.change k m) (host'.change k m) := by
  -- a session after the change is one from before it, changed if it is session `k`
  have hget : ∀ (sessions : Array Session) {j u}, (sessions.modify k m)[j]? = some u →
      ∃ s, sessions[j]? = some s ∧ u = if k = j then m s else s := by
    intro sessions j u hu
    rw [Array.getElem?_modify] at hu
    by_cases hj : k = j
    · rw [if_pos hj] at hu
      obtain ⟨s, hs, rfl⟩ := Option.map_eq_some_iff.mp hu
      exact ⟨s, hs, (if_pos hj).symm⟩
    · rw [if_neg hj] at hu
      exact ⟨u, hu, (if_neg hj).symm⟩
  have hreserved : ∀ {j c r}, Reserved (host.sessions.modify k m) j c r →
      Reserved host.sessions j c r := by
    rintro j c r ⟨i, u, f, hi, hu, hc, rfl⟩
    obtain ⟨s, hs, rfl⟩ := hget _ hu
    refine ⟨i, s, f, hi, hs, ?_, ?_⟩
    · split at hc
      · rwa [hpool] at hc
      · exact hc
    · split
      · exact hroot s
      · rfl
  refine ⟨h.toStorage, h.frames, h.first, h.sites, ?_, fun {j u u'} hu hu' => ?_⟩
  · show (Array.modify _ _ _).size = (Array.modify _ _ _).size
    rw [Array.size_modify, Array.size_modify, h.count]
  · obtain ⟨s, hs, rfl⟩ := hget _ hu
    obtain ⟨s', hs', rfl⟩ := hget _ hu'
    have hold : Rel (Reserved host.sessions j) w ⟨host.heap, host.sites, [], if k = j then m s else s⟩
        ⟨host'.heap, host'.sites, [], if k = j then m s' else s'⟩ := by
      split
      · exact hrel (h.session hs hs')
      · exact h.session hs hs'
    exact hold.mono_reserved hreserved

/-- The settings without a pool. -/
def unpooled (settings : Settings) : Settings := { settings with poolCapacity := 0 }

/-- A new session, in a world in which its scope is the last one. -/
theorem rel_new {h h' : Heap} (hstorage : Storage w h h') (hframes : w.frames = [])
    (horigin : w.Pinned 0 0) {sites sites' : CallSites} (hsites : sites = sites') {root root' : Nat}
    (hroot : w.Pinned root root') (haround : w.around root' = []) {reserved : Nat → Nat → Prop}
    (hreserved : ∀ {c r}, reserved c r → Idle w h.scopes r c) (id : Nat) (settings : Settings) :
    Rel reserved w ⟨h, sites, [], .new id root settings⟩
      ⟨h', sites', [], .new id root' (unpooled settings)⟩ := by
  have hresume : (Session.new id 0 (unpooled settings)).resume = [] :=
    Session.new_eq (p := Session.resume) (fun _ _ _ => rfl) id 0 _
  have hfs : (Session.new id 0 (unpooled settings)).frames = [] :=
    Session.new_eq (p := Session.frames) (fun _ _ _ => rfl) id 0 _
  rw [Session.new_place id root, Session.new_place id root']
  exact {
    toStorage := hstorage
    origin := horigin
    sites := hsites
    held := rfl
    id := rfl
    root := hroot
    rootAround := haround
    catalog := rfl
    classes := rfl
    cancellation := rfl
    parser := rfl
    mode := rfl
    meter := rfl
    calls := rfl
    output := rfl
    resume := by
      show List.Forall₂ _ (Session.new id 0 (unpooled settings)).resume
        (Session.new id 0 (unpooled settings)).resume
      rw [hresume]
      exact .nil
    frames := by
      show (Session.new id 0 (unpooled settings)).frames = _
      rw [hfs, hframes]
      rfl
    frames' := by
      show (Session.new id 0 (unpooled settings)).frames = _
      rw [hfs, hframes]
    known := by
      rw [hframes]
      nofun
    kept := by
      rw [hframes]
      nofun
    distinct := by
      rw [hframes]
      exact List.nodup_nil
    pooled := ⟨nofun, fun _ => List.nodup_nil, nofun, nofun, hreserved⟩
    pool' := rfl }

/-- The scope of a new session stands for one that no body uses, and may be held. -/
theorem pinned_pushNew (hframes : w.frames = []) (c : Nat) : (w.push c []).Pinned c w.size := by
  have hchain : (w.push c []).chain w.size = [w.size] := congrArg (w.size :: ·) (if_pos rfl)
  refine ⟨if_pos rfl, ?_, ?_, fun a _ => ?_⟩
  · rw [hchain]
    intro a ha
    cases List.mem_singleton.mp ha
    exact Nat.lt_succ_self _
  · rw [hchain]
    intro a ha
    cases List.mem_singleton.mp ha
    exact fun hd => hd.1 rfl
  · rintro ⟨f, hf, -⟩
    rw [show (w.push c []).frames = w.frames from rfl, hframes] at hf
    cases hf

/-- What is idle stays so where a new scope is made. -/
theorem Idle.pushNew {items : Array TreeScript.Scope} {r c : Nat} (h : Idle w items r c) (scope : TreeScript.Scope) :
    Idle (w.push items.size []) (items.push scope) r c := by
  refine h.push _ (Nat.ne_of_gt h.lt) ?_ fun a ha => ?_
  · rw [Array.size_push]
    exact Nat.le_succ _
  · rw [getD_push_lt _ _ ha]

/-- A new session has nothing idle. -/
theorem reserved_of_start {settings : Settings} {k c r : Nat}
    (h : Reserved (host.start settings).sessions k c r) : Reserved host.sessions k c r := by
  obtain ⟨j, s, f, hj, hs, hc, hr⟩ := h
  rcases Host.of_getElem?_start hs with hs | ⟨rfl, rfl⟩
  · exact ⟨j, s, f, hj, hs, hc, hr⟩
  · rw [Session.new_place] at hc
    cases hc

/-- A session is started with a pool on the left side only. -/
theorem Hosts.start (h : Hosts w host host') (settings : Settings) :
    ∃ w', Hosts w' (host.start settings) (host'.start (unpooled settings)) := by
  have hsize : host'.heap.scopes.size = w.size := h.scopes.size
  have hle := w.le_push host.heap.scopes.size []
  have hscopes := h.scopes.pushNew (List.forall_mem_nil _)
  have hstorage := h.toStorage.change _ hscopes hle.unwound.pinned
  have hroot := pinned_pushNew h.frames host.heap.scopes.size
  have horigin : (w.push host.heap.scopes.size []).Pinned 0 0 := by
    -- if there were no scopes before, scope 0 is the root of the new session
    rcases h.first with ⟨hw, hhost⟩ | hfirst
    · rw [hhost] at hroot ⊢
      rwa [hw] at hroot
    · exact hle.unwound.pinned hfirst
  refine ⟨w.push host.heap.scopes.size [], hstorage, h.frames, Or.inr horigin, h.sites, ?_, ?_⟩
  · show (Array.push _ _).size = (Array.push _ _).size
    rw [Array.size_push, Array.size_push, h.count]
  · intro k u u' hu hu'
    change (host.sessions.push _)[k]? = some u at hu
    change (host'.sessions.push _)[k]? = some u' at hu'
    rw [Array.getElem?_push] at hu hu'
    rw [← h.count] at hu'
    by_cases hk : k = host.sessions.size
    · rw [if_pos hk] at hu hu'
      cases hu
      cases hu'
      rw [h.count, hsize]
      refine rel_new hstorage h.frames horigin h.sites hroot (if_pos rfl) (fun hr => ?_) _ _
      obtain ⟨j, s, f, hj, hs, hc, rfl⟩ := reserved_of_start hr
      have hlt := (Array.getElem?_eq_some_iff.mp hs).1
      obtain ⟨s', hs'⟩ : ∃ s', host'.sessions[j]? = some s' :=
        ⟨_, Array.getElem?_eq_getElem (h.count ▸ hlt)⟩
      exact ((h.session hs hs').pooled.idle hc).pushNew _
    · rw [if_neg hk] at hu hu'
      have hold := h.session hu hu'
      exact (hold.push hscopes (hold.pooled.congr fun hc => hc.pushNew _) hold.meter).mono_reserved
        reserved_of_start

/-! ## Requests -/

/-- The request to a host whose sessions have no pools. -/
def unpooledRequest : Request → Request
  | .start settings => .start (unpooled settings)
  | r => r

/-- Each request is answered alike, as long as it is not stopped. -/
theorem Hosts.answer (h : Hosts w host host') (fuel : Nat) (r : Request)
    (hstop : (host.answer (fun _ => watched fuel) r).1.isOutOfFuel = false) :
    host.answer (fun _ => watched fuel) r = host.answer (fun _ => evaluator fuel) r ∧
      (host.answer (fun _ => evaluator fuel) r).1 =
        (host'.answer (fun _ => evaluator fuel) (unpooledRequest r)).1 ∧
      ∃ w', Hosts w' (host.answer (fun _ => evaluator fuel) r).2
        (host'.answer (fun _ => evaluator fuel) (unpooledRequest r)).2 := by
  cases r with
  | start settings => exact ⟨rfl, rfl, h.start settings⟩
  | prepare n =>
    have hsites : host.sites.reserve n = host'.sites.reserve n := by rw [h.sites]
    refine ⟨rfl, rfl, w, h.toStorage, h.frames, h.first, hsites, h.count, fun hs hs' => ?_⟩
    exact { h.session hs hs' with sites := hsites }
  | evaluate k e =>
    exact h.run k fuel (Simulation.fair_evaluate e) (jumpless_evaluate e) hstop
  | callFunction k name args =>
    exact h.run k fuel (Simulation.fair_callFunction name args) (jumpless_callFunction name args) hstop
  | addFunction k f =>
    refine ⟨rfl, rfl, w, h.change k (fun _ => rfl) (fun _ => rfl) fun {_ s s'} hs => ?_⟩
    exact { hs with
      catalog := congrArg (fun c : Catalog => (c.add f).2) (Rel.catalog hs) }
  | removeFunction k name arity =>
    refine ⟨rfl, rfl, w, h.change k (fun _ => rfl) (fun _ => rfl) fun {_ s s'} hs => ?_⟩
    exact { hs with
      catalog := congrArg (fun c : Catalog => (c.remove name arity).2) (Rel.catalog hs) }
  | setParser k parser? =>
    exact ⟨rfl, rfl, w, h.change k (fun _ => rfl) (fun _ => rfl) fun hs => { hs with parser := rfl }⟩
  | cancel k marks =>
    exact ⟨rfl, rfl, w, h.change k (fun _ => rfl) (fun _ => rfl) fun hs =>
      { hs with cancellation := rfl }⟩
  | takeOutput k =>
    refine ⟨rfl, ?_, w, h.change k (fun _ => rfl) (fun _ => rfl) fun {_ s s'} hs => ?_⟩
    · show Outcome.value (((host.sessions[k]?).map fun s => Value.str s.output.text).getD .null) =
        Outcome.value (((host'.sessions[k]?).map fun s => Value.str s.output.text).getD .null)
      rcases h.session? k with ⟨hs, hs'⟩ | ⟨s, s', hs, hs'⟩
      · rw [hs, hs']
      · rw [hs, hs']
        have houtput : s.output = s'.output := (h.session hs hs').output
        simp only [Option.map_some, houtput]
    · exact { hs with output := congrArg Output.clear (Rel.output hs) }

/-- Histories are answered alike, as long as no request is stopped. -/
theorem Hosts.serve (h : Hosts w host host') (fuel : Nat) (rs : List Request)
    (hstop : ∀ o ∈ (host.serve (fun _ => watched fuel) rs).1, o.isOutOfFuel = false) :
    (host.serve (fun _ => evaluator fuel) rs).1 =
        (host'.serve (fun _ => evaluator fuel) (rs.map unpooledRequest)).1 ∧
      ∃ w', Hosts w' (host.serve (fun _ => evaluator fuel) rs).2
        (host'.serve (fun _ => evaluator fuel) (rs.map unpooledRequest)).2 := by
  induction rs generalizing host host' w with
  | nil => exact ⟨rfl, w, h⟩
  | cons r rs ih =>
    obtain ⟨heq, hfirst, w₁, hhosts⟩ := h.answer fuel r (hstop _ List.mem_cons_self)
    have hrest := ih hhosts fun o ho => by
      rw [← heq] at ho
      exact hstop o (List.mem_cons_of_mem _ ho)
    refine ⟨?_, hrest.2⟩
    show (host.answer _ r).1 :: ((host.answer _ r).2.serve _ rs).1 =
      (host'.answer _ (unpooledRequest r)).1 ::
        ((host'.answer _ (unpooledRequest r)).2.serve _ (rs.map unpooledRequest)).1
    rw [hfirst, hrest.1]

end Pooling

/-! ## What a host shows -/

namespace Host

open Exec

/-- Two hosts have the same values in storage, and their sessions have printed the same and have the
same global variables. -/
structure ShowsSame (host host' : Host) : Prop where
  slots : host.heap.slots = host'.heap.slots
  sequences : host.heap.sequences = host'.heap.sequences
  maps : host.heap.maps = host'.heap.maps
  session : ∀ {k : Nat} {s s' : Session}, host.sessions[k]? = some s →
    host'.sessions[k]? = some s' →
    s.output = s'.output ∧ ∀ x, host.heap.lookup s.root x = host'.heap.lookup s'.root x

theorem ShowsSame.of_hosts {w : Pooling.World} {host host' : Host}
    (h : Pooling.Hosts w host host') : host.ShowsSame host' where
  slots := h.alike.slots
  sequences := h.alike.sequences
  maps := h.alike.maps
  session hs hs' :=
    have hrel := h.session hs hs'
    ⟨hrel.output, fun x => hrel.scopes.lookup hrel.root x⟩

/-- Without a pool every call of a function of the program runs in a new scope inside that of the
global variables, and gives nothing back. -/
theorem acquireScope_empty (function : Nat) (ev : Evaluator) {s : State}
    (h : s.session.pool = .empty 0) :
    acquireScope (some function) ev s =
        (.value s.heap.scopes.size, (s.withMeter (s.session.meter.countPool false)).withHeap
          (s.heap.newScope s.session.root).2) ∧
      ∀ f, s.session.pool.leave f = s.session.pool := by
  rw [acquireScope_some, h]
  exact ⟨rfl, Pool.leave_empty⟩

/-- **Using scopes again does not show.**  In a history in which no handler begins in a call that has
left its scope early, every request is answered as if every call ran in a new scope and no scope were
given back; in the end the two hosts show the same, and hold the same up to the numbers of scopes. -/
theorem serve_unpooled (fuel : Nat) (rs : List Request)
    (hstop : ∀ o ∈ (empty.serve (fun _ => Pooling.watched fuel) rs).1, o.isOutOfFuel = false) :
    let left := empty.serve (fun _ => evaluator fuel) rs
    let right := empty.serve (fun _ => evaluator fuel) (rs.map Pooling.unpooledRequest)
    left.1 = right.1 ∧ left.2.ShowsSame right.2 ∧ ∃ w, Pooling.Hosts w left.2 right.2 := by
  obtain ⟨hanswers, w, hhosts⟩ := Pooling.hosts_empty.serve fuel rs hstop
  exact ⟨hanswers, ShowsSame.of_hosts hhosts, w, hhosts⟩

/-- The function `fn f(n) { if n == 0 throw exception("stop"); return f(n - 1) }`. -/
def countdown : FunctionDecl Node where
  name := "f"
  params := [⟨"n", .int⟩]
  returns := .any
  body := .block [
    .branch [(.binary .eq (.var "n") (.literal (.int 0)),
      .throwValue (.call 0 "exception" [.literal (.str "stop")]))] none,
    .returnWith (some (.call 1 "f" [.binary .sub (.var "n") (.literal (.int 1))]))]
  isCoroutine := false

/-- The same with a handler around the last statement: `try { return f(n - 1) } catch e { return n }`. -/
def caughtCountdown : FunctionDecl Node where
  name := "f"
  params := [⟨"n", .int⟩]
  returns := .any
  body := .block [
    .branch [(.binary .eq (.var "n") (.literal (.int 0)),
      .throwValue (.call 0 "exception" [.literal (.str "stop")]))] none,
    .tryCatch (.returnWith (some (.call 1 "f" [.binary .sub (.var "n") (.literal (.int 1))]))) "e"
      (.returnWith (some (.var "n")))]
  isCoroutine := false

/-- The values that a history is answered with. -/
def answers (rs : List Request) : List Value :=
  (empty.serve (fun _ => evaluator 20) rs).1.map fun
    | .value v => v
    | _ => .null

/-- A handler outside the calls does not show whether their scopes are used again. -/
theorem serve_unpooled_countdown :
    let rs : List Request := [.start bare, .prepare 3, .evaluate 0 (.functionDef countdown),
      .evaluate 0 (.tryCatch (.call 2 "f" [.literal (.int 2)]) "e" (.literal (.int 7)))]
    (∀ o ∈ (empty.serve (fun _ => Pooling.watched 20) rs).1, o.isOutOfFuel = false) ∧
      answers rs = [.null, .null, .null, .int 7] ∧
      (empty.serve (fun _ => evaluator 20) rs).1 =
        (empty.serve (fun _ => evaluator 20) (rs.map Pooling.unpooledRequest)).1 := by
  intro rs
  have hstop : ∀ o ∈ (empty.serve (fun _ => Pooling.watched 20) rs).1, o.isOutOfFuel = false := by
    decide +kernel
  exact ⟨hstop, by decide +kernel, (serve_unpooled 20 rs hstop).1⟩

/-- A handler in a call that has left its scope early reads the variable of the call that uses the
scope: `f(1)` gives 0 with a pool, and 1 without. -/
theorem caughtCountdown_shows :
    let rs : List Request := [.start bare, .prepare 3, .evaluate 0 (.functionDef caughtCountdown),
      .evaluate 0 (.call 2 "f" [.literal (.int 1)])]
    answers rs = [.null, .null, .null, .int 0] ∧
      answers (rs.map Pooling.unpooledRequest) = [.null, .null, .null, .int 1] := by
  decide +kernel

end Host
end TreeScript
