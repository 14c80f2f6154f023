import TreeScript.Proofs.Hierarchy.Sessions

/-
# Hierarchies over the histories of a host

A host answers requests in any of its sessions, registers classes with methods of its own, and hands over
functions.  The hosts that come about so are those that `Arise`.  A constructor that is handed over is of a
class that some session has registered, or of one that is *given*: nothing is said about given classes.

In every session of such a host the classes are registered, and everything is of known classes
(`Host.Arises.classed`).  So what is true of registered classes is true of the classes of a session whatever
has been evaluated in it: each has what the walk of its hierarchy finds first (`members_eq_walk`), and
extending orders them (`subclassing_order`).
-/

namespace TreeScript

open Exec

namespace Host

/-! ## Hosts that arise -/

/-- The classes of which there may be instances: those that a session has registered, those that are given,
and the one that stands for no class. -/
def Knows (given : ClassDef → Prop) (host : Host) (c : ClassDef) : Prop :=
  given c ∨ c = default ∨ ∃ (k : Nat) (s : Session), host.sessions[k]? = some s ∧ Registered.Holds s.classes c

/-- The hosts that there are.  Trees and class declarations are prepared, evaluated and registered in any
order and any of the sessions. -/
inductive Arises (given : ClassDef → Prop) : Host → Prop
  | empty : Arises given .empty
  | answer {host : Host} (fuel : Nat) {r : Request} : Arises given host →
      (∀ k f, r = .addFunction k f → f.Makes (host.Knows given)) →
      Arises given (host.answer (fun _ => evaluator fuel) r).2
  | register {host : Host} (k : Nat) (r : Registration) : Arises given host →
      Arises given (host.change k (·.withRegistration r))
  | newCallable {host : Host} {f : Function} : Arises given host → f.Makes (host.Knows given) →
      Arises given { host with heap := (host.heap.newCallable (.function f)).2 }

/-- The classes of every session are registered, and everything is of known classes. -/
structure Classed (given : ClassDef → Prop) (host : Host) : Prop where
  heap : host.heap.Classed (host.Knows given)
  session : ∀ {k : Nat} {s : Session}, host.sessions[k]? = some s → s.Classed (host.Knows given)

section
variable {given : ClassDef → Prop} {host : Host}

theorem classed_empty : Host.empty.Classed given where
  heap := ⟨fun _ => .inr (.inl rfl), fun h => by cases h⟩
  session h := by cases h

/-- A session is changed, and what it knows stays known. -/
theorem Classed.change (hc : host.Classed given) (k : Nat) {m : Session → Session}
    (hgrown : ∀ s, host.sessions[k]? = some s →
      ∀ c, Registered.Holds s.classes c → Registered.Holds (m s).classes c)
    (hm : ∀ s, host.sessions[k]? = some s →
      (m s).Classed (Registered.Knows (host.Knows given) (m s).classes)) :
    (host.change k m).Classed given := by
  have hget : ∀ j, (host.change k m).sessions[j]? =
      if k = j then (host.sessions[j]?).map m else host.sessions[j]? := fun j => by
    simp only [Host.change, Array.getElem?_modify]
  have hknown : ∀ c, host.Knows given c → (host.change k m).Knows given c := by
    rintro c (hgiven | hdefault | ⟨j, s, hj, hs⟩)
    · exact .inl hgiven
    · exact .inr (.inl hdefault)
    · refine .inr (.inr ⟨j, if k = j then m s else s, ?_, ?_⟩)
      · rw [hget, hj]
        split <;> rfl
      · split
        · rename_i hkj
          exact hgrown s (hkj ▸ hj) c hs
        · exact hs
  refine ⟨hc.heap.mono hknown, fun {j t} ht => ?_⟩
  have hj := ht
  rw [hget] at ht
  split at ht
  · rename_i hkj
    obtain ⟨s, hs, rfl⟩ := Option.map_eq_some_iff.mp ht
    refine (hm s (hkj ▸ hs)).mono fun c hcls => ?_
    rcases hcls with hheld | hcls
    · exact .inr (.inr ⟨j, m s, hj, hheld⟩)
    · exact hknown c hcls
  · exact (hc.session ht).mono hknown

/-- Classes and catalog of a session stay as they are, or the catalog loses entries. -/
theorem Classed.keep (hc : host.Classed given) (k : Nat) {m : Session → Session}
    (hclasses : ∀ s, (m s).classes = s.classes)
    (hcatalog : ∀ s, s.Classed (host.Knows given) → (m s).Classed (host.Knows given)) :
    (host.change k m).Classed given :=
  hc.change k (fun s _ _ h => (hclasses s).symm ▸ h) fun s hs =>
    (hcatalog s (hc.session hs)).mono fun _ h => .inr h

theorem Classed.start (hc : host.Classed given) (settings : Settings) :
    (host.start settings).Classed given := by
  have hknown : ∀ c, host.Knows given c → (host.start settings).Knows given c := by
    rintro c (hgiven | hdefault | ⟨k, s, hk, hs⟩)
    · exact .inl hgiven
    · exact .inr (.inl hdefault)
    · exact .inr (.inr ⟨k, s, getElem?_start hk settings, hs⟩)
  refine ⟨⟨fun i => hknown _ (hc.heap.classOf i), fun hf => (hc.heap.makes hf).mono hknown⟩,
    fun {k t} ht => ?_⟩
  rcases of_getElem?_start ht with hk | ⟨-, rfl⟩
  · exact (hc.session hk).mono hknown
  · have hnew : (Session.new (host.sessions.size + 1) host.heap.scopes.size settings).Classed fun _ => True :=
      Session.classed_new trivial _ _ settings
    exact Session.classed_new (.inr (.inr ⟨k, _, ht, hnew.exception⟩)) _ _ settings

/-- Two evaluators that end alike wherever everything is of known classes give the same answer, which leaves
the host in order. -/
theorem Classed.run (hc : host.Classed given) (k : Nat) {ev ev' : Evaluator} {x : Exec Value}
    (hx : ((Grounds.hierarchy (host.Knows given)).alike ev ev').Keeps x) :
    host.runWith k ev x = host.runWith k ev' x ∧ (host.runWith k ev x).2.Classed given := by
  unfold runWith
  cases hk : host.sessions[k]? with
  | none => exact ⟨rfl, hc⟩
  | some s =>
    have hstate : State.Classed (host.Knows given) s.classes ⟨host.heap, host.sites, [], s⟩ :=
      ⟨rfl, (hc.session hk).mono fun _ h => .inr h, hc.heap.mono fun _ h => .inr h⟩
    obtain ⟨classes, hends⟩ := hx s.classes _ hstate
    dsimp only
    rw [← hends.eq]
    refine ⟨rfl, ?_⟩
    have hgrown : ∀ c, Registered.Holds s.classes c → Registered.Holds classes c := hends.grown
    have hgood : State.Classed (host.Knows given) classes _ := hends.good
    generalize x ev ⟨host.heap, host.sites, [], s⟩ = r at hgood
    obtain rfl := hgood.classes_eq
    obtain ⟨hlt, -⟩ := Array.getElem?_eq_some_iff.mp hk
    have hself : (host.sessions.setIfInBounds k r.2.session)[k]? = some r.2.session := by
      rw [getElem?_setSession _ hk, if_pos rfl]
    -- what the session knows at the end the host knows: its classes are those the session is left with,
    -- and the other sessions are as they were
    have hknown : ∀ c, Registered.Knows (host.Knows given) r.2.session.classes c →
        Knows given ⟨r.2.heap, r.2.sites, host.sessions.setIfInBounds k r.2.session⟩ c := by
      rintro c (hheld | hgiven | hdefault | ⟨j, t, hj, ht⟩)
      · exact .inr (.inr ⟨k, _, hself, hheld⟩)
      · exact .inl hgiven
      · exact .inr (.inl hdefault)
      · by_cases hkj : k = j
        · subst hkj
          cases hk.symm.trans hj
          exact .inr (.inr ⟨k, _, hself, hgrown c ht⟩)
        · refine .inr (.inr ⟨j, t, ?_, ht⟩)
          rw [getElem?_setSession _ hk, if_neg hkj, hj]
    refine ⟨hgood.heap.mono hknown, fun {j t} ht => ?_⟩
    rw [getElem?_setSession _ hk] at ht
    split at ht
    · cases ht
      exact hgood.session.mono hknown
    · exact (hc.session ht).mono fun c hcls => hknown c (.inr hcls)

/-! ## Requests -/

/-- Two evaluators that end alike wherever everything is of known classes give the same answers to requests,
which leave the host in order. -/
theorem Classed.answer (hc : host.Classed given) {ev ev' : Evaluator}
    (K : ((Grounds.hierarchy (host.Knows given)).alike ev ev').Ready) {r : Request}
    (hr : ∀ k f, r = .addFunction k f → f.Makes (host.Knows given)) :
    host.answer (fun _ => ev) r = host.answer (fun _ => ev') r ∧
      (host.answer (fun _ => ev) r).2.Classed given := by
  cases r with
  | start settings => exact ⟨rfl, hc.start settings⟩
  | prepare n => exact ⟨rfl, hc.heap, hc.session⟩
  | evaluate k e =>
    exact hc.run k fun _ => Logic.keeps_evaluate K (Grounds.hierarchy_modifySession fun _ => rfl) trivial
  | callFunction k name args =>
    exact hc.run k (Logic.keeps_callFunction K name args (Grounds.hierarchy_modifySession fun _ => rfl))
  | addFunction k f => exact ⟨rfl, hc.keep k (fun _ => rfl) fun s hs => hs.addFunction (hr k f rfl)⟩
  | removeFunction k name arity =>
    refine ⟨rfl, hc.keep k (fun _ => rfl) fun s hs => ⟨hs.registered, hs.exception, fun {slot f} hf => ?_⟩⟩
    exact hs.makes ((Catalog.get?_remove s.catalog name arity slot).symm.trans hf)
  | setParser k _ | cancel k _ | takeOutput k =>
    exact ⟨rfl, hc.keep k (fun _ => rfl) fun s hs => hs.congr rfl rfl⟩

theorem Classed.register (hc : host.Classed given) (k : Nat) (r : Registration) :
    (host.change k (·.withRegistration r)).Classed given := by
  have hregister : ∀ s : Session, s.Classed (host.Knows given) →
      (∀ c, Registered.Holds s.classes c → Registered.Holds (s.withRegistration r).classes c) ∧
        (s.withRegistration r).Classed
          (Registered.Knows (host.Knows given) (s.withRegistration r).classes) := by
    intro s hs
    unfold Session.withRegistration
    split
    · rename_i t ht
      have hstate : State.Classed (host.Knows given) s.classes ⟨host.heap, host.sites, [], s⟩ :=
        ⟨rfl, hs.mono fun _ h => .inr h, hc.heap.mono fun _ h => .inr h⟩
      obtain ⟨hgrown, hstate⟩ := hstate.register ht
      exact ⟨hgrown, hstate.session⟩
    · exact ⟨fun _ h => h, hs.mono fun _ h => .inr h⟩
  exact hc.change k (fun s hs => (hregister s (hc.session hs)).1) fun s hs =>
    (hregister s (hc.session hs)).2

theorem ready_hierarchy (others : ClassDef → Prop) (fuel : Nat) :
    ((Grounds.hierarchy others).alike (evaluator fuel) (evaluator fuel)).Ready := by
  have hwatched : ((Grounds.hierarchy others).alike (evaluator fuel)
      (observed (fun _ => false) (pure ()) fuel)).Ready :=
    Grounds.ready_observed (fun n => Grounds.lawful_hierarchy rfl fun _ _ _ => ⟨rfl, rfl⟩)
      (fun _ _ _ => rfl) fuel
  rwa [observed_never] at hwatched

/-- Everything in a host that arises is of known classes. -/
theorem Arises.classed (h : host.Arises given) : host.Classed given := by
  induction h with
  | empty => exact classed_empty
  | answer fuel _ hr ih => exact (ih.answer (ready_hierarchy _ fuel) hr).2
  | register k r _ ih => exact ih.register k r
  | newCallable _ hf ih =>
    refine ⟨ih.heap.newCallable fun g hg => ?_, ih.session⟩
    cases hg
    exact hf

/-! ## Members -/

/-- **What a class has is what a walk of its hierarchy finds first.**  In every session of every host that
arises, whatever has been registered in which order and whatever has been evaluated in between, there is the
list of what has been registered, latest first, and every class has exactly the fields, the methods and the
constructors that the walk of its hierarchy through this list finds first; its fields stand in the order in
which the walk names them first, and none twice.  A class that is built over them either lists one that is not
registered, or has what the walk finds first, too.  It comes out the same, but for the order of its own
entries, in whatever order the entries of the registered classes are gone through. -/
theorem members_eq_walk (h : host.Arises given) {k : Nat} {s : Session}
    (hs : host.sessions[k]? = some s) :
    ∃ book, Registered book s.classes ∧
      (∀ name c, s.classes.find? name = some c →
        c.Follows (walk book name) ∧ (ClassDef.fieldNames c.fields).Nodup) ∧
      ∀ (r : Registration) (known : String → Option ClassDef), Reorders s.classes.find? known →
        (∃ name ∈ r.superclasses, s.classes.find? name = none ∧
          r.build s.classes.find? = .error (.of (.undefinedClass name)) ∧
          r.build known = .error (.of (.undefinedClass name))) ∨
        ∃ c c', r.build s.classes.find? = .ok c ∧ r.build known = .ok c' ∧
          c.Follows (r.walk book) ∧ c'.Follows (r.walk book) ∧
          (ClassDef.fieldNames c.fields).Nodup ∧ c.Reordered c' := by
  obtain ⟨book, hbook⟩ := (h.classed.session hs).registered
  refine ⟨book, hbook, fun name c hc => ?_, fun r known hknown => ?_⟩
  · have hfollows := hbook.follows hc
    exact ⟨hfollows, hfollows.nodup⟩
  · rcases r.build_reordered hknown (fun _ _ => hbook.distinct) with ⟨e, he, he'⟩ | ⟨c, c', hc, hc', hsame⟩
    · obtain ⟨name, hname, hnone, rfl⟩ := Registration.exists_of_build_error he
      exact .inl ⟨name, hname, hnone, he, he'⟩
    · have hfollows := hbook.follows_build hc
      exact .inr ⟨c, c', hc, hc', hfollows, hfollows.congr hsame.1 hsame.2, hfollows.nodup, hsame.1⟩

/-! ## Order -/

/-- Left and right of a diamond with a method each, and below them a class that lists one of them twice. -/
def diamond : List Registration :=
  [⟨⟨"Top", [], [⟨"x", .int, none⟩, ⟨"y", .int, none⟩], [⟨"m", [], .any, .literal .null, false⟩], []⟩, []⟩,
    ⟨⟨"Left", ["Top"], [⟨"y", .string, none⟩], [], [⟨[⟨"a", .any⟩], .literal .null⟩]⟩, []⟩,
    ⟨⟨"Right", ["Top"], [⟨"z", .int, none⟩, ⟨"z", .any, none⟩], [], []⟩,
      [⟨"m", .fixed [], .any, .native .echo⟩]⟩,
    ⟨⟨"Bottom", ["Right", "Left", "Right"], [], [], []⟩, []⟩]

/-- A host with a session in which the classes of a diamond are registered. -/
def diamondHost : Host :=
  diamond.foldl (fun host r => host.change 0 (·.withRegistration r)) (Host.empty.answer (fun _ =>
    evaluator 10) (.start bare)).2

theorem arises_diamondHost (given : ClassDef → Prop) : diamondHost.Arises given := by
  have hstarted : (Host.empty.answer (fun _ => evaluator 10) (.start bare)).2.Arises given :=
    .answer 10 .empty fun _ _ h => by cases h
  unfold diamondHost
  generalize diamond = rs, (Host.empty.answer (fun _ => evaluator 10) (.start bare)).2 = host at hstarted
  induction rs generalizing host with
  | nil => exact hstarted
  | cons r rs ih => exact ih _ (.register 0 r hstarted)

/-- The entries of the tables of a class from the last one to the first one. -/
def backwards : ClassDef → ClassDef
  | .mk name supers fields methods constructors =>
    .mk name supers fields ⟨methods.entries.reverse⟩ ⟨constructors.entries.reverse⟩

/-- Below the diamond, a method of the host comes first, and the field that two classes declare is that of
the one which the walk meets first. -/
theorem members_eq_walk_diamond :
    ∃ s, diamondHost.sessions[0]? = some s ∧
      Reorders s.classes.find? (fun name => (s.classes.find? name).map backwards) ∧
      ∃ book c c', Registered book s.classes ∧ s.classes.find? "Bottom" = some c ∧
        c.Follows (walk book "Bottom") ∧ (ClassDef.fieldNames c.fields) = ["z", "x", "y"] ∧
        (Registration.mk ⟨"Below", ["Bottom"], [], [], []⟩ []).build
          (fun name => (s.classes.find? name).map backwards) = .ok c' ∧
        c'.Follows (Registration.walk ⟨⟨"Below", ["Bottom"], [], [], []⟩, []⟩ book) := by
  have hfound : (diamondHost.sessions[0]?.bind fun s => (s.classes.find? "Bottom").map fun c =>
      ClassDef.fieldNames c.fields) = some ["z", "x", "y"] := by decide +kernel
  obtain ⟨s, hs, hfound⟩ := Option.bind_eq_some_iff.mp hfound
  obtain ⟨c, hc, hnames⟩ := Option.map_eq_some_iff.mp hfound
  have hreorders : Reorders s.classes.find? (fun name => (s.classes.find? name).map backwards) := by
    intro name
    dsimp only
    cases s.classes.find? name with
    | none => exact .none
    | some c =>
      obtain ⟨name, supers, fields, methods, constructors⟩ := c
      exact .some ⟨rfl, rfl, (List.reverse_perm _).symm, (List.reverse_perm _).symm⟩
  obtain ⟨book, hbook, hregistered, hbuilt⟩ := members_eq_walk (arises_diamondHost fun _ => False) hs
  refine ⟨s, hs, hreorders, book, c, ?_⟩
  rcases hbuilt ⟨⟨"Below", ["Bottom"], [], [], []⟩, []⟩ _ hreorders with
    ⟨name, hname, hnone, -⟩ | ⟨_, c', -, hc', -, hfollows, -⟩
  · cases List.mem_singleton.mp hname
    cases hnone.symm.trans hc
  · exact ⟨c', hbook, hc, (hregistered _ c hc).1, hnames, hc', hfollows⟩

/-! ## Order -/

/-- Extending, among the classes of a session: it orders them, it is the same whether a class is asked for or
its name, and a class has what a class has which it extends. -/
structure Ordered (classes : Table String ClassDef) : Prop where
  /-- Going up from class to class, by what each one lists, comes to an end. -/
  ends : WellFounded fun above below : String =>
    ∃ c, classes.find? below = some c ∧ ∃ s ∈ c.superclasses, s.name = above
  refl : ∀ {a}, Registered.Holds classes a → a.extendsClass a = true
  trans : ∀ {a b c}, Registered.Holds classes a → Registered.Holds classes b →
    Registered.Holds classes c → a.extendsClass b = true → b.extendsClass c = true →
    a.extendsClass c = true
  antisymm : ∀ {a b}, Registered.Holds classes a → Registered.Holds classes b →
    a.extendsClass b = true → b.extendsClass a = true → a = b
  named : ∀ {a b}, Registered.Holds classes a → Registered.Holds classes b →
    (a.extendsClass b = true ↔ a.extendsName b.name = true)
  covers : ∀ {a b}, Registered.Holds classes a → Registered.Holds classes b →
    a.extendsClass b = true → a.Covers b

end
end Host
end TreeScript
