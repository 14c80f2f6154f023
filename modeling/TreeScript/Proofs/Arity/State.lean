import TreeScript.Proofs.Arity.Calls
import TreeScript.Proofs.Arity.Code
import TreeScript.Proofs.Logic.Nodes
import TreeScript.Proofs.Storage

/-
# Sound states

A state is sound if all code in its heap and in its session is built and labelled, and if what a call site
remembers for the session answers the label of the site.  A site may remember a function of another
session, of which it is only known that it is not new.

Evaluations keep states sound, and two evaluators that differ only where the arguments of a body are not
as many as its parameters go on to agree: this is a lawful logic, whose worlds are the labels of the
sites.
-/

namespace TreeScript

open Exec

/-- Whether a function may be called where a label stands: it goes by the name and takes as many
arguments. -/
def Function.answers (f : Function) (label : CallLabel) : Bool :=
  f.name == label.1 && f.arity.accepts label.2

/-- What a catalog finds for a call answers its label. -/
theorem Catalog.Sound.answers_of_callee {ok : Node → Prop} {c : Catalog} (h : c.Sound ok)
    {name : String} {argc slot : Nat} {f : Function} (hf : c.callee? name argc = some (slot, f)) :
    c.get? slot = some f ∧ f.answers (name, argc) = true := by
  obtain ⟨hget, hname, haccepts⟩ := h.callee hf
  exact ⟨hget, Bool.and_eq_true_iff.mpr ⟨beq_iff_eq.mpr hname, haccepts⟩⟩

theorem CallSites.next_reserve (s : CallSites) (n : Nat) : (s.reserve n).next = max s.next n := by
  unfold next reserve
  rw [Array.size_append, Array.size_replicate]
  omega

/-! ## Heaps -/

section
variable {ok ok' : Node → Prop}

/-- What a callable runs is built. -/
def Callable.Built (ok : Node → Prop) : Callable → Prop
  | .function f => f.Built ok
  | .lambda _ body _ => ok body
  | .deferred expr _ => ok expr

/-- A coroutine was started with as many arguments as it has parameters. -/
structure Coroutine.Sound (ok : Node → Prop) (c : Coroutine) : Prop where
  body : ok c.body
  length : c.params.length = c.args.length

/-- The code in a heap is built. -/
structure Heap.Sound (ok : Node → Prop) (h : Heap) : Prop where
  classOf : ∀ i, (h.classOf i).Built ok
  callable : ∀ i, (h.callable i).Built ok
  coroutine : ∀ i, (h.coroutine i).Sound ok

theorem Callable.Built.mono (hok : ∀ e, ok e → ok' e) {k : Callable} (h : k.Built ok) : k.Built ok' := by
  cases k with
  | function f => exact Function.Built.mono hok h
  | lambda _ _ _ | deferred _ _ => exact hok _ h

namespace Heap

variable {h : Heap}

theorem Sound.mono (hok : ∀ e, ok e → ok' e) (hs : h.Sound ok) : h.Sound ok' where
  classOf i := (hs.classOf i).mono hok
  callable i := (hs.callable i).mono hok
  coroutine i := ⟨hok _ (hs.coroutine i).body, (hs.coroutine i).length⟩

theorem sound_empty (hok : ok default) : Heap.empty.Sound ok where
  classOf _ := ClassDef.built_default
  callable _ := hok
  coroutine _ := ⟨hok, rfl⟩

theorem Sound.newObject (hs : h.Sound ok) {c : ClassDef} (hc : c.Built ok) (around : Nat) :
    (h.newObject c around).2.Sound ok where
  classOf := forall_push (P := fun o : Instance => o.cls.Built ok) hs.classOf hc
  callable := hs.callable
  coroutine := hs.coroutine

theorem Sound.newCallable (hs : h.Sound ok) {k : Callable} (hk : k.Built ok) :
    (h.newCallable k).2.Sound ok where
  classOf := hs.classOf
  callable := forall_push (P := Callable.Built ok) hs.callable hk
  coroutine := hs.coroutine

/-- Binding parameters concerns slots and scopes alone. -/
theorem Sound.declareAll (hs : h.Sound ok) (c : Nat) (ps : List Param) (args : List Value) :
    (h.declareAll c ps args).Sound ok := by
  unfold Heap.declareAll
  generalize ps.zip args = pairs
  induction pairs generalizing h with
  | nil => exact hs
  | cons p pairs ih => exact ih ⟨hs.classOf, hs.callable, hs.coroutine⟩

theorem Sound.newCoroutine (hs : h.Sound ok) (name : String) {ps : List Param} {body : Node}
    {args : List Value} (hbody : ok body) (hlength : ps.length = args.length) (origin : Nat) :
    (h.newCoroutine name ps body args origin).2.Sound ok := by
  have hscope : (h.newScope origin).2.Sound ok := ⟨hs.classOf, hs.callable, hs.coroutine⟩
  have hdeclared := hscope.declareAll (h.newScope origin).1 ps args
  exact ⟨hdeclared.classOf, hdeclared.callable,
    forall_push (P := Coroutine.Sound ok) hdeclared.coroutine ⟨hbody, hlength⟩⟩

theorem Sound.restart (hs : h.Sound ok) (i : Nat) : (h.restart i).2.Sound ok :=
  hs.newCoroutine _ (hs.coroutine i).body (hs.coroutine i).length _

end Heap
end

/-! ## States -/

/-- What the sites remember for a session is in its catalog and answers the labels of the sites. -/
def Session.Recalls (labels : List CallLabel) (sites : CallSites) (session : Session) : Prop :=
  ∀ site slot, sites.get? site session.id = some slot →
    ∃ f label, session.catalog.get? slot = some f ∧ labels[site]? = some label ∧ f.answers label = true

/-- A state is sound in an evaluation in the session of a number, before which the sites remembered
something for the other sessions. -/
structure State.Sound (owner : Nat) (before : CallSites) (labels : List CallLabel) (s : State) :
    Prop where
  length : s.sites.next = labels.length
  heap : s.heap.Sound (Labelled labels)
  session : s.session.Sound (Labelled labels)
  own : s.session.id = owner
  recalls : s.session.Recalls labels s.sites
  others : ∀ site id slot, id ≠ owner → s.sites.get? site id = some slot → before.get? site id = some slot

section
variable {labels labels' : List CallLabel} {owner : Nat} {before : CallSites} {s t : State}

theorem Session.Recalls.mono {sites : CallSites} {session : Session} (h : labels <+: labels')
    (hr : session.Recalls labels sites) : session.Recalls labels' sites := by
  intro site slot hslot
  obtain ⟨f, label, hf, hlabel, hanswers⟩ := hr site slot hslot
  exact ⟨f, label, hf, getElem?_of_prefix h hlabel, hanswers⟩

/-- What is added to the catalog leaves what is in it where it is. -/
theorem Session.Recalls.of_catalog {sites : CallSites} {session session' : Session}
    (hr : session.Recalls labels sites) (hid : session'.id = session.id)
    (hcatalog : ∀ slot f, session.catalog.get? slot = some f → session'.catalog.get? slot = some f) :
    session'.Recalls labels sites := by
  intro site slot hslot
  rw [hid] at hslot
  obtain ⟨f, label, hf, hanswers⟩ := hr site slot hslot
  exact ⟨f, label, hcatalog slot f hf, hanswers⟩

namespace State

/-- Soundness looks at the core only. -/
theorem Sound.congr (h : t.core = s.core) (hs : s.Sound owner before labels) :
    t.Sound owner before labels := by
  have hobjects : t.heap.objects = s.heap.objects := congrArg Core.objects h
  have hcallables : t.heap.callables = s.heap.callables := congrArg Core.callables h
  have hstarts : t.core.starts = s.core.starts := congrArg Core.starts h
  have hsites : t.sites = s.sites := congrArg Core.sites h
  have hid : t.session.id = s.session.id := congrArg Core.id h
  have hcatalog : t.session.catalog = s.session.catalog := congrArg Core.catalog h
  have hclasses : t.session.classes = s.session.classes := congrArg Core.classes h
  refine ⟨hsites ▸ hs.length, ⟨fun i => ?_, fun i => ?_, fun i => ?_⟩, ⟨?_, fun hc => ?_⟩,
    hid.trans hs.own, ?_, hsites ▸ hs.others⟩
  · have hi := hs.heap.classOf i
    rwa [Heap.classOf, Heap.object, ← hobjects] at hi
  · have hi := hs.heap.callable i
    rwa [Heap.callable, ← hcallables] at hi
  · obtain ⟨hparams, hrest⟩ := Prod.mk.inj (congrFun hstarts i)
    obtain ⟨hargs, hbody⟩ := Prod.mk.inj hrest
    refine ⟨?_, ?_⟩
    · rw [hbody]
      exact (hs.heap.coroutine i).body
    · rw [hparams, hargs]
      exact (hs.heap.coroutine i).length
  · rw [hcatalog]
    exact hs.session.catalog
  · rw [hclasses] at hc
    exact hs.session.classes hc
  · rw [hsites]
    exact hs.recalls.of_catalog hid fun slot f hf => by rw [hcatalog]; exact hf

/-- What is done to the heap. -/
theorem Sound.withHeap (hs : s.Sound owner before labels) {h : Heap} (hh : h.Sound (Labelled labels)) :
    (s.withHeap h).Sound owner before labels :=
  ⟨hs.length, hh, hs.session, hs.own, hs.recalls, hs.others⟩

/-- What is done to a session that keeps its number and what is in the slots of its catalog. -/
theorem Sound.withSession (hs : s.Sound owner before labels) {session : Session}
    (hsession : session.Sound (Labelled labels)) (hid : session.id = s.session.id)
    (hcatalog : ∀ slot f, s.session.catalog.get? slot = some f → session.catalog.get? slot = some f) :
    (s.withSession session).Sound owner before labels :=
  ⟨hs.length, hs.heap, hsession, hid.trans hs.own, hs.recalls.of_catalog hid hcatalog, hs.others⟩

/-- Sites that are added are labelled. -/
theorem Sound.reserve (hs : s.Sound owner before labels) {n : Nat} (h : labels <+: labels')
    (hn : (s.sites.reserve n).next = labels'.length) :
    (s.withSites (s.sites.reserve n)).Sound owner before labels' where
  length := hn
  heap := hs.heap.mono fun _ he => he.mono h
  session := hs.session.mono fun _ he => he.mono h
  own := hs.own
  recalls site slot hslot := by
    change (s.sites.reserve n).get? site s.session.id = some slot at hslot
    rw [CallSites.get?_reserve] at hslot
    exact hs.recalls.mono h site slot hslot
  others site id slot hne hslot := by
    change (s.sites.reserve n).get? site id = some slot at hslot
    rw [CallSites.get?_reserve] at hslot
    exact hs.others site id slot hne hslot

/-- A site remembers a function that answers its label. -/
theorem Sound.remember (hs : s.Sound owner before labels) {site slot : Nat} {f : Function}
    {label : CallLabel} (hf : s.session.catalog.get? slot = some f) (hlabel : labels[site]? = some label)
    (hanswers : f.answers label = true) :
    (s.withSites (s.sites.set site s.session.id slot)).Sound owner before labels where
  length := (Array.size_modify ..).trans hs.length
  heap := hs.heap
  session := hs.session
  own := hs.own
  recalls site' slot' hslot := by
    change (s.sites.set site s.session.id slot).get? site' s.session.id = some slot' at hslot
    rw [CallSites.get?_set] at hslot
    split at hslot
    · rename_i hsite
      rw [if_pos rfl] at hslot
      cases hslot
      exact ⟨f, label, hf, hsite.1 ▸ hlabel, hanswers⟩
    · exact hs.recalls site' slot' hslot
  others site' id slot' hne hslot := by
    change (s.sites.set site s.session.id slot).get? site' id = some slot' at hslot
    rw [CallSites.get?_set] at hslot
    split at hslot
    · have hother : s.session.id ≠ id := fun heq => hne (heq.symm.trans hs.own)
      rw [if_neg hother] at hslot
      cases hslot
    · exact hs.others site' id slot' hne hslot

/-- A site resolves to a function that is in its slot of the catalog and answers the label of the site. -/
theorem Sound.resolveCall (hs : s.Sound owner before labels) {site : Nat} {name : String} {argc : Nat}
    (hlabel : labels[site]? = some (name, argc)) (ev : Evaluator) :
    (resolveCall site name argc ev s).2.Sound owner before labels ∧
      ∀ callee, (resolveCall site name argc ev s).1 = .value callee →
        (resolveCall site name argc ev s).2.session.catalog.get? callee.1 = some callee.2 ∧
          callee.2.answers (name, argc) = true := by
  rw [resolveCall_apply]
  cases hremembered : remembered site s with
  | some callee =>
    obtain ⟨slot, hslot, hmap⟩ := Option.bind_eq_some_iff.mp hremembered
    obtain ⟨f, hf, rfl⟩ := Option.map_eq_some_iff.mp hmap
    obtain ⟨g, label, hg, hlabel', hanswers⟩ := hs.recalls site slot hslot
    cases hf.symm.trans hg
    cases hlabel.symm.trans hlabel'
    refine ⟨hs, fun _ h => ?_⟩
    cases h
    exact ⟨hf, hanswers⟩
  | none =>
    dsimp only
    cases hcallee : s.session.catalog.callee? name argc with
    | none => exact ⟨hs, fun _ h => by cases h⟩
    | some callee =>
      obtain ⟨slot, f⟩ := callee
      obtain ⟨hf, hanswers⟩ := hs.session.catalog.answers_of_callee hcallee
      refine ⟨hs.remember hf hlabel hanswers, fun _ h => ?_⟩
      cases h
      exact ⟨hf, hanswers⟩

end State
end

end TreeScript
