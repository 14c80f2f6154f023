import TreeScript.Proofs.Requests
import TreeScript.Proofs.Simulation.Host
import TreeScript.Proofs.Simulation.View

/-
# The numbers of sessions

Call sites know a session by its number.  Sessions are numbered from one in the order in which they
are started, and nothing that a host is asked to do changes the number of a session, so that over every
history different sessions have different numbers.
-/

namespace TreeScript

open Exec

/-! ## New sessions -/

namespace Session

section
variable {β : Type} {p : Session → β}
variable (hp : ∀ s catalog classes, p { s with catalog := catalog, classes := classes } = p s)
include hp

/-- Adding functions changes nothing but the catalog. -/
theorem foldl_addFunction_eq {α : Type} (f : α → Function) (items : List α) (s : Session) :
    p (items.foldl (fun s a => s.addFunction (f a)) s) = p s :=
  List.foldlRecOn (motive := fun t => p t = p s) items _ rfl fun t ht _ _ => (hp t _ t.classes).trans ht

/-- Adding a class changes nothing but the catalog and the classes. -/
theorem addClass_eq {s t : Session} {c : ClassDef} (h : s.addClass c = .ok t) : p t = p s := by
  obtain ⟨-, rfl⟩ := addClass_eq_ok.mp h
  exact (foldl_addFunction_eq hp (fun g => g) _ _).trans (hp s s.catalog _)

omit hp in
/-- A class that is defined has been built over the classes that there are, and added. -/
theorem exists_of_defineClass {s t : Session} {d : ClassDecl Node} (h : s.defineClass d = .ok t) :
    ∃ c, ClassDef.build d s.classes.find? = .ok c ∧ s.addClass c = .ok t := by
  unfold defineClass at h
  cases hbuilt : ClassDef.build d s.classes.find? with
  | error e =>
    rw [hbuilt] at h
    cases h
  | ok c =>
    rw [hbuilt] at h
    exact ⟨c, rfl, h⟩

/-- A new session has functions and classes; all else is as it is in a blank one. -/
theorem new_eq (id root : Nat) (settings : Settings) :
    p (Session.new id root settings) = p (Session.blank id root settings) := by
  have hexception : p (Session.blank id root settings).addExceptionClass =
      p (Session.blank id root settings) := by
    unfold addExceptionClass
    split
    · split
      · rename_i h
        exact addClass_eq hp h
      · rfl
    · rfl
  unfold Session.new
  dsimp only
  split
  · exact (foldl_addFunction_eq hp Function.core _ _).trans hexception
  · exact hexception

end

/-- A new session has the number that it is started with. -/
theorem id_new (id root : Nat) (settings : Settings) : (Session.new id root settings).id = id :=
  new_eq (p := Session.id) (fun _ _ _ => rfl) id root settings

end Session

/-! ## Properties of sessions -/

namespace Host

/-- A session after an evaluation in session `k`. -/
theorem getElem?_setSession (sessions : Array Session) {k : Nat} {s : Session}
    (hk : sessions[k]? = some s) (t : Session) (j : Nat) :
    (sessions.setIfInBounds k t)[j]? = if k = j then some t else sessions[j]? := by
  obtain ⟨hlt, _⟩ := Array.getElem?_eq_some_iff.mp hk
  rw [Array.getElem?_setIfInBounds, if_pos hlt]

/-- The sessions that a host has keep their places. -/
theorem getElem?_start {host : Host} {k : Nat} {s : Session} (h : host.sessions[k]? = some s)
    (settings : Settings) : (host.start settings).sessions[k]? = some s := by
  obtain ⟨hlt, hs⟩ := Array.getElem?_eq_some_iff.mp h
  show (host.sessions.push _)[k]? = some s
  rw [Array.getElem?_push_lt hlt, hs]

/-- A host has one session more after a start, which is numbered next and works in a new scope. -/
theorem of_getElem?_start {host : Host} {settings : Settings} {k : Nat} {s : Session}
    (h : (host.start settings).sessions[k]? = some s) : host.sessions[k]? = some s ∨
      k = host.sessions.size ∧ s = .new (host.sessions.size + 1) host.heap.scopes.size settings := by
  change (host.sessions.push _)[k]? = some s at h
  rw [Array.getElem?_push] at h
  split at h
  · rename_i hk
    exact Or.inr ⟨hk, (Option.some.inj h).symm⟩
  · exact Or.inl h

/-- Every session has a property, which may depend on its place. -/
def All (P : Nat → Session → Prop) (host : Host) : Prop :=
  ∀ (k : Nat) (s : Session), host.sessions[k]? = some s → P k s

/-- New sessions have a property, evaluations keep it, and it says nothing of what is changed from
outside. -/
structure Keeps (P : Nat → Session → Prop) (ev : Nat → Evaluator) : Prop where
  new : ∀ k root settings, P k (.new (k + 1) root settings)
  run : ∀ {k x}, Simulation.Fair x → ∀ h sites {s}, P k s → P k (x (ev k) ⟨h, sites, [], s⟩).2.session
  outside : ∀ {k s} (catalog parser? cancellation output), P k s →
    P k { s with
      catalog := catalog, parser? := parser?, cancellation := cancellation, output := output }

variable {P : Nat → Session → Prop} {ev : Nat → Evaluator} {host : Host}

theorem All.run (h : host.All P) {k : Nat} {x : Exec Value}
    (hx : ∀ heap sites s, P k s → P k (x (ev k) ⟨heap, sites, [], s⟩).2.session) :
    (host.runWith k (ev k) x).2.All P := by
  unfold runWith
  cases hs : host.sessions[k]? with
  | none => exact h
  | some s =>
    intro j t ht
    rw [getElem?_setSession _ hs] at ht
    split at ht
    · rename_i hj
      cases ht
      rw [← hj]
      exact hx _ _ s (h k s hs)
    · exact h j t ht

theorem All.change (h : host.All P) (k : Nat) {m : Session → Session}
    (hm : ∀ j s, P j s → P j (m s)) : (host.change k m).All P := by
  intro j t ht
  simp only [Host.change, Array.getElem?_modify] at ht
  split at ht
  · obtain ⟨u, hu, rfl⟩ := Option.map_eq_some_iff.mp ht
    exact hm j u (h j u hu)
  · exact h j t ht

theorem All.start (h : host.All P) {settings : Settings}
    (hnew : ∀ k root, P k (.new (k + 1) root settings)) : (host.start settings).All P := by
  intro k t ht
  rcases of_getElem?_start ht with ht | ⟨rfl, rfl⟩
  · exact h k t ht
  · exact hnew _ _

theorem All.answer (K : Keeps P ev) (h : host.All P) (r : Request) : (host.answer ev r).2.All P := by
  cases r with
  | start settings => exact h.start fun k root => K.new k root settings
  | prepare n => exact h
  | evaluate k e => exact h.run fun h sites _ => K.run (Simulation.fair_evaluate e) h sites
  | callFunction k name args =>
    exact h.run fun h sites _ => K.run (Simulation.fair_callFunction name args) h sites
  | addFunction k _ | removeFunction k _ _ | setParser k _ | cancel k _ | takeOutput k =>
    exact h.change k fun _ _ => K.outside _ _ _ _

/-- Every history keeps the property. -/
theorem All.serve (K : Keeps P ev) (h : host.All P) (rs : List Request) :
    (host.serve ev rs).2.All P := by
  induction rs generalizing host with
  | nil => exact h
  | cons r rs ih => exact ih (h.answer K r)

/-- Evaluators that agree wherever the property holds give the same answers. -/
theorem All.serve_congr {ev' : Nat → Evaluator} (K : Keeps P ev) (h : host.All P)
    (heq : ∀ {k x}, Simulation.Fair x → ∀ h sites s, P k s →
      x (ev' k) ⟨h, sites, [], s⟩ = x (ev k) ⟨h, sites, [], s⟩) (rs : List Request) :
    host.serve ev' rs = host.serve ev rs := by
  have hrun : ∀ {host : Host} {k x}, Simulation.Fair x → host.All P →
      host.runWith k (ev' k) x = host.runWith k (ev k) x := by
    intro host k x hx h
    unfold runWith
    cases hs : host.sessions[k]? with
    | none => rfl
    | some s =>
      dsimp only
      rw [heq hx _ _ s (h k s hs)]
  induction rs generalizing host with
  | nil => rfl
  | cons r rs ih =>
    -- only these two requests run anything
    have hanswer : host.answer ev' r = host.answer ev r := by
      cases r with
      | evaluate k e => exact hrun (Simulation.fair_evaluate e) h
      | callFunction k name args => exact hrun (Simulation.fair_callFunction name args) h
      | _ => rfl
    rw [Host.serve, Host.serve, hanswer]
    dsimp only
    rw [ih (h.answer K r)]

theorem all_empty (P : Nat → Session → Prop) : Host.empty.All P := by
  intro k s h
  cases h

/-! ## Numbers -/

/-- Sessions are numbered from one, in the order in which they were started. -/
def Numbered (host : Host) : Prop :=
  ∀ (k : Nat) (s : Session), host.sessions[k]? = some s → s.id = k + 1

theorem numbered_empty : Host.empty.Numbered := all_empty _

/-- An evaluation keeps the number of its session. -/
theorem keeps_numbered (fuel : Nat) : Keeps (fun k s => s.id = k + 1) fun _ => evaluator fuel where
  new k root settings := Session.id_new (k + 1) root settings
  run {k x} hx h sites s hs := by
    have kept : Invariant.SitesKept fun _ id _ => id = k + 1 :=
      ⟨fun _ h => h, fun _ h => h, fun _ _ h _ => h⟩
    have K := kept.kept False False
    have hends := hx _ K.lawful (K.upheld.ready fuel) (w := ()) trivial (fun _ => trivial)
      ⟨h, sites, [], s⟩ _ (Invariant.rel_self hs)
    rcases Invariant.eq_of_ends (fun _ h => h) hends with ⟨hlax, _⟩ | ⟨_, _, _, hid, _⟩
    · exact hlax.elim
    · exact hid
  outside _ _ _ _ hs := hs

theorem Numbered.answer (h : host.Numbered) (fuel : Nat) (r : Request) :
    (host.answer (fun _ => evaluator fuel) r).2.Numbered :=
  All.answer (keeps_numbered fuel) h r

/-- Every history keeps the sessions numbered. -/
theorem Numbered.serve (h : host.Numbered) (fuel : Nat) (rs : List Request) :
    (host.serve (fun _ => evaluator fuel) rs).2.Numbered :=
  All.serve (keeps_numbered fuel) h rs

end Host
end TreeScript
