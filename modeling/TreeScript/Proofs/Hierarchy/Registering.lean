import TreeScript.Proofs.Hierarchy.Hosts
import TreeScript.Proofs.Instances

/-
# Registering a class, wholly or not at all

Registering a class takes several steps: its superclasses are looked up, the class is merged, its name must be
new, and then the class and the functions by which it is called are added one after the other.  What can fail
comes first (`Session.exists_registering`), so that a session is either left as it was or has got the class
with all that belongs to it, and nothing else (`Session.Gains`).

The keys under which a class is called do not collide: the constructors of a registered class are kept under the
number of their parameters (`Registered.sorted_build`).  So the functions that are added all remain, in slots
that follow those which there were (`Catalog.lookup_addAll`).
-/

namespace TreeScript

open Exec

/-! ## Adding several functions -/

/-- A new key makes a table larger by one. -/
theorem Table.size_insert {κ α : Type} [DecidableEq κ] {t : Table κ α} {k : κ} (h : t.find? k = none) (v : α) :
    (t.insert k v).size = t.size + 1 := by
  have hkept : t.entries.filter (·.1 ≠ k) = t.entries := by
    apply List.filter_eq_self.mpr
    intro e he
    have hne : ¬ k = e.1 := by simpa using List.lookup_eq_none_iff.mp h e he
    simpa using Ne.symm hne
  show (t.entries.filter (·.1 ≠ k)).length + 1 = t.entries.length + 1
  rw [hkept]

namespace Function

/-- The key under which the catalog finds a function. -/
def key (f : Function) : String × Arity := (f.name, f.arity)

end Function

namespace Catalog

/-- Add functions one after the other. -/
def addAll (c : Catalog) (fs : List Function) : Catalog := fs.foldl (fun c f => (c.add f).2) c

variable {c : Catalog} {fs : List Function} {name : String} {arity : Arity}

/-- Their slots follow those which there were. -/
theorem slots_addAll (c : Catalog) (fs : List Function) : (c.addAll fs).slots = c.slots ++ fs.toArray := by
  induction fs generalizing c with
  | nil => simp [addAll]
  | cons f fs ih =>
    show ((c.add f).2.addAll fs).slots = c.slots ++ (f :: fs).toArray
    rw [ih]
    show c.slots.push f ++ fs.toArray = c.slots ++ (f :: fs).toArray
    simp

/-- A key that none of them has leads where it did. -/
theorem lookup_addAll_of_not_mem (h : (name, arity) ∉ fs.map Function.key) :
    (c.addAll fs).lookup name arity = c.lookup name arity := by
  induction fs generalizing c with
  | nil => rfl
  | cons f fs ih =>
    rw [List.map_cons, List.mem_cons, not_or] at h
    show ((c.add f).2.addAll fs).lookup name arity = _
    rw [ih h.2, lookup_add]
    exact if_neg h.1

/-- Where their keys differ, each is found in its slot. -/
theorem lookup_addAll (h : (fs.map Function.key).Nodup) {i : Nat} {f : Function} (hf : fs[i]? = some f) :
    (c.addAll fs).lookup f.name f.arity = some (c.slots.size + i) := by
  induction fs generalizing c i with
  | nil => simp at hf
  | cons g fs ih =>
    rw [List.map_cons, List.nodup_cons] at h
    obtain ⟨hnew, hrest⟩ := h
    show ((c.add g).2.addAll fs).lookup f.name f.arity = _
    -- the first is not replaced by the others, whose keys differ; the others have their slots after it
    cases i with
    | zero =>
      cases hf
      rw [lookup_addAll_of_not_mem hnew, lookup_add, if_pos rfl]
      rfl
    | succ i =>
      have hsize : (c.add g).2.slots.size = c.slots.size + 1 := Array.size_push g
      rw [ih hrest hf, hsize]
      congr 1
      omega

end Catalog

/-! ## Calling a class -/

namespace ClassDef

variable {c : ClassDef} {n : Nat} {d : ConstructorDecl Node} {ctor : Option (ConstructorDecl Node)}

/-- The constructor that makes an instance from a number of arguments.  A class that has none at all is called
without arguments, and nothing is run then but the defaults of its fields. -/
def called? (c : ClassDef) (n : Nat) : Option (Option (ConstructorDecl Node)) :=
  if c.constructors.size = 0 then if n = 0 then some none else none
  else (c.constructor? n).map some

/-- In how many ways a class is called. -/
def ways (c : ClassDef) : Nat := max 1 c.constructors.size

/-- The constructors are kept under the number of their parameters, none twice. -/
structure Sorted (c : ClassDef) : Prop where
  distinct : c.constructors.Distinct
  arity : ∀ {n d}, c.constructor? n = some d → d.params.length = n

theorem sortedConstructors_perm (c : ClassDef) : c.sortedConstructors.Perm c.constructors.entries :=
  List.mergeSort_perm ..

/-- The functions by which a class is called are those of all its ways, and there are no others. -/
theorem Sorted.mem_constructorsOf (hc : c.Sorted) {f : Function} :
    f ∈ Session.constructorsOf c ↔ ∃ n ctor, c.called? n = some ctor ∧ f = .constructor c ctor := by
  have hperm := c.sortedConstructors_perm
  have hsize : c.constructors.size = c.sortedConstructors.length := hperm.length_eq.symm
  unfold Session.constructorsOf called?
  rw [hsize]
  split
  · rename_i hctors
    rw [hctors]
    constructor
    · intro hf
      exact ⟨0, none, by simp, by simpa using hf⟩
    · rintro ⟨n, ctor, hcalled, rfl⟩
      by_cases hn : n = 0
      · simp [hn] at hcalled
        simp [hcalled]
      · simp [hn] at hcalled
  · rename_i hctors
    have hsome : c.sortedConstructors.length ≠ 0 := by simpa using hctors
    simp only [if_neg hsome, Option.map_eq_some_iff, List.mem_map, Prod.exists]
    constructor
    · rintro ⟨n, d, hmem, rfl⟩
      exact ⟨n, some d, ⟨d, hc.distinct.find?_eq_some.mpr (hperm.mem_iff.mp hmem), rfl⟩, rfl⟩
    · rintro ⟨n, _, ⟨d, hd, rfl⟩, rfl⟩
      exact ⟨n, d, hperm.mem_iff.mpr (hc.distinct.find?_eq_some.mp hd), rfl⟩

/-- A way to call a class takes its number of arguments. -/
theorem Sorted.arity_called (hc : c.Sorted) (h : c.called? n = some ctor) :
    (Function.constructor c ctor).arity = .exact n := by
  unfold called? at h
  split at h
  · split at h
    · rename_i hn
      cases h
      rw [hn]
      rfl
    · cases h
  · obtain ⟨d, hd, rfl⟩ := Option.map_eq_some_iff.mp h
    show Arity.exact d.params.length = .exact n
    rw [hc.arity hd]

/-- The functions by which a class is called have different keys. -/
theorem Sorted.nodup_keys (hc : c.Sorted) : ((Session.constructorsOf c).map Function.key).Nodup := by
  have hperm := c.sortedConstructors_perm
  have hnumbers : (c.sortedConstructors.map Prod.fst).Nodup := (hperm.map Prod.fst).nodup_iff.mpr hc.distinct
  unfold Session.constructorsOf
  split
  · exact List.nodup_singleton _
  · have hkeys : (c.sortedConstructors.map fun e => Function.constructor c (some e.2)).map Function.key =
        (c.sortedConstructors.map Prod.fst).map fun n => (c.name, Arity.exact n) := by
      rw [List.map_map, List.map_map]
      apply List.map_congr_left
      intro e he
      have hd : c.constructor? e.1 = some e.2 := hc.distinct.find?_eq_some.mpr (hperm.mem_iff.mp he)
      show (c.name, Arity.exact e.2.params.length) = (c.name, Arity.exact e.1)
      rw [hc.arity hd]
    rw [hkeys]
    apply hnumbers.map
    intro m n hmn
    cases hmn
    rfl

theorem length_constructorsOf (c : ClassDef) : (Session.constructorsOf c).length = c.ways := by
  have hsize : c.constructors.size = c.sortedConstructors.length := c.sortedConstructors_perm.length_eq.symm
  unfold Session.constructorsOf ways
  rw [hsize]
  cases c.sortedConstructors with
  | nil => rfl
  | cons e es => simp

end ClassDef

/-- The constructors of a class that is built over registered ones are kept under the number of their
parameters. -/
theorem Registered.sorted_build {book : List Registration} {classes : Table String ClassDef}
    {r : Registration} {c : ClassDef} (h : Registered book classes) (hbuild : r.build classes.find? = .ok c) :
    c.Sorted := by
  obtain ⟨_, _, hmerges⟩ := Registration.merges_of_build hbuild
  refine ⟨hmerges.distinctConstructors, fun {n d} hd => ?_⟩
  have hfirst : (r.walk book).findSome? (·.constructor? n) = some d := by
    rw [← (h.follows_build hbuild).constructor n]
    exact hd
  obtain ⟨declaring, -, hdeclared⟩ := List.exists_of_findSome?_eq_some hfirst
  simpa using List.find?_some hdeclared

/-! ## Sessions -/

namespace Session

/-- **What a session gains by a class**: the class under a name that none had, and a function for each way to
call it, in a new slot.  Every other class, every other key and every slot is as it was, and so is the rest of
the session. -/
structure Gains (s : Session) (c : ClassDef) (t : Session) : Prop where
  fresh : s.classes.find? c.name = none
  classes : ∀ name, t.classes.find? name = if name = c.name then some c else s.classes.find? name
  size : t.classes.size = s.classes.size + 1
  /-- A number of arguments that the class takes leads to the constructor for it. -/
  called : ∀ {n ctor}, c.called? n = some ctor → ∃ slot, s.catalog.slots.size ≤ slot ∧
    t.catalog.lookup c.name (.exact n) = some slot ∧ t.catalog.get? slot = some (.constructor c ctor) ∧
    (Function.constructor c ctor).arity = .exact n
  /-- No other key leads anywhere else. -/
  others : ∀ name arity, (∀ n, c.called? n ≠ none → (name, arity) ≠ (c.name, .exact n)) →
    t.catalog.lookup name arity = s.catalog.lookup name arity
  slots : ∀ slot < s.catalog.slots.size, t.catalog.get? slot = s.catalog.get? slot
  added : t.catalog.slots.size = s.catalog.slots.size + c.ways
  rest : t = { s with classes := t.classes, catalog := t.catalog }

/-- What comes of registering a class, and when.  It fails for the first of its superclasses that is not known,
or else because its name is taken, or else the session gains what is merged from what the class declares and
from what its superclasses have. -/
inductive Registering (s : Session) (r : Registration) : Except EvalError Session → Prop
  | unknown {before after : List String} {name : String} : r.superclasses = before ++ name :: after →
      (∀ known ∈ before, (s.classes.find? known).isSome = true) → s.classes.find? name = none →
      Registering s r (.error (.of (.undefinedClass name)))
  | taken : (∀ name ∈ r.superclasses, (s.classes.find? name).isSome = true) →
      (s.classes.find? r.name).isSome = true →
      Registering s r (.error (.of (.custom ("Class " ++ r.name ++ " already defined"))))
  | added {supers : List ClassDef} {c : ClassDef} {t : Session} :
      List.Forall₂ (fun name super => s.classes.find? name = some super) r.superclasses supers →
      r.Merges supers c → s.Gains c t → Registering s r (.ok t)

/-- Registering is as it should be, whatever is registered next. -/
def RegistersWholly (s : Session) : Prop := ∀ r : Registration, s.Registering r (s.register r)

variable {s t : Session} {r : Registration} {c : ClassDef}

theorem addFunctions_eq (fs : List Function) (s : Session) :
    fs.foldl addFunction s = { s with catalog := s.catalog.addAll fs } := by
  induction fs generalizing s with
  | nil => rfl
  | cons f fs ih => exact ih (s.addFunction f)

/-- A class that is added under a new name is gained. -/
theorem gains_addClass (hc : c.Sorted) (hfresh : s.classes.find? c.name = none) :
    s.Gains c ((constructorsOf c).foldl addFunction { s with classes := s.classes.insert c.name c }) := by
  rw [addFunctions_eq]
  have hslots := s.catalog.slots_addAll (constructorsOf c)
  have hlength := c.length_constructorsOf
  refine ⟨hfresh, fun name => Table.find?_insert .., Table.size_insert hfresh c, fun {n ctor} hcalled => ?_,
    fun name arity hother => ?_, fun slot hslot => ?_, ?_, rfl⟩
  · have hmem : Function.constructor c ctor ∈ constructorsOf c := hc.mem_constructorsOf.mpr ⟨n, ctor, hcalled, rfl⟩
    obtain ⟨i, hi⟩ := List.mem_iff_getElem?.mp hmem
    have harity := hc.arity_called hcalled
    have hlookup := Catalog.lookup_addAll (c := s.catalog) hc.nodup_keys hi
    refine ⟨s.catalog.slots.size + i, Nat.le_add_right .., ?_, ?_, harity⟩
    · rw [← harity]
      exact hlookup
    · show (s.catalog.addAll (constructorsOf c)).slots[s.catalog.slots.size + i]? = _
      rw [hslots, Array.getElem?_append_right (Nat.le_add_right ..)]
      simpa using hi
  · apply Catalog.lookup_addAll_of_not_mem
    intro hmem
    obtain ⟨f, hf, hkey⟩ := List.mem_map.mp hmem
    obtain ⟨n, ctor, hcalled, rfl⟩ := hc.mem_constructorsOf.mp hf
    have hsome : c.called? n ≠ none := by simp [hcalled]
    apply hother n hsome
    rw [← hkey, ← hc.arity_called hcalled]
    rfl
  · show (s.catalog.addAll (constructorsOf c)).slots[slot]? = s.catalog.slots[slot]?
    rw [hslots, Array.getElem?_append_left hslot]
  · show (s.catalog.addAll (constructorsOf c)).slots.size = _
    rw [hslots, Array.size_append, ← hlength]
    rfl

theorem isSome_of_forall₂ {known : String → Option ClassDef} {names : List String} {supers : List ClassDef}
    (h : List.Forall₂ (fun name super => known name = some super) names supers) :
    ∀ name ∈ names, (known name).isSome = true := by
  induction h with
  | nil => simp
  | cons hname _ ih => simpa [hname] using ih

/-- Where the classes have been registered one after the other, so is the next one, wholly or not at all. -/
theorem registersWholly {book : List Registration} (h : Registered book s.classes) : s.RegistersWholly := by
  intro r
  unfold register
  cases hbuild : r.build s.classes.find? with
  | error e =>
    obtain ⟨before, name, after, hnames, hbefore, hname, rfl⟩ := Registration.build_eq_error.mp hbuild
    exact .unknown hnames hbefore hname
  | ok c =>
    obtain ⟨supers, hsupers, hmerges⟩ := Registration.merges_of_build hbuild
    show s.Registering r (s.addClass c)
    unfold addClass
    split
    · rename_i htaken
      rw [hmerges.name] at htaken ⊢
      exact .taken (isSome_of_forall₂ hsupers) htaken
    · rename_i hfresh
      have hnone : s.classes.find? c.name = none := by simpa [Table.contains] using hfresh
      exact .added hsupers hmerges (gains_addClass (h.sorted_build hbuild) hnone)

/-- A class that lists itself is not registered. -/
theorem RegistersWholly.register_self (h : s.RegistersWholly) (hself : r.name ∈ r.superclasses) :
    ∃ e, s.register r = .error e := by
  have hregistering := h r
  generalize s.register r = result at hregistering
  cases hregistering with
  | unknown => exact ⟨_, rfl⟩
  | taken => exact ⟨_, rfl⟩
  | added hsupers hmerges hgains =>
    have hknown := isSome_of_forall₂ hsupers r.name hself
    have hfresh := hgains.fresh
    rw [hmerges.name] at hfresh
    rw [hfresh] at hknown
    cases hknown

end Session

/-! ## Evaluations -/

/-- A class definition registers the class, and does nothing else. -/
theorem dispatch_classDef (d : ClassDecl Node) (scope : Nat) (ev : Evaluator) (u : State) :
    dispatch (.classDef d) scope ev u =
      match u.session.register ⟨d, []⟩ with
      | .ok t => (.value .null, u.withSession t)
      | .error e => (.signal (.error e), u) := by
  rw [← Session.defineClass_eq_register]
  show (do
    let s ← ofExcept (← session fun s => s.defineClass d)
    modifySession fun _ => s
    return Value.null : Exec Value) ev u = _
  simp only [bind_apply, session]
  cases u.session.defineClass d <;> rfl

/-- Making an instance of a class gives a new object of this class, if it gives anything. -/
theorem instantiate_gives {fuel : Nat} {c : ClassDef} {ctor : Option (ConstructorDecl Node)}
    {args : List Value} {s t : State} {v : Value}
    (h : (instantiate c ctor args).run fuel s = (.value v, t)) :
    v = .object s.heap.objects.size ∧ t.heap.classOf s.heap.objects.size = c ∧ s.heap.Keeps t.heap := by
  let made := s.withHeap (s.heap.newObject c s.session.root).2
  let i := s.heap.objects.size
  let filling : Exec Value := methodScope i >>= fun scope => asBarrier c.name (construct i scope c ctor args)
  have heq : (instantiate c ctor args).run fuel s = (filling >>= fun _ => pure (.object i)).run fuel made := by
    rw [instantiate_eq, bind_assoc]
    rfl
  -- what fills the object keeps it, like every other one
  have hfilling : made.heap.Keeps (filling.run fuel made).2.heap := by
    have hupheld := Invariant.instances_upheld made.heap
    have hagrees : (Invariant.instances made.heap).toSimulation.Agrees (evaluator fuel) (evaluator fuel) ()
        filling filling :=
      Simulation.agrees_construct hupheld.lawful (hupheld.ready fuel) ⟨c.name, trivial⟩ c ctor args
    exact hagrees.keeps
  have hkeeps : s.heap.Keeps made.heap := (Heap.Keeps.refl s.heap).addObject _
  have hmade : i < made.heap.objects.size := by
    show s.heap.objects.size < (s.heap.objects.push _).size
    rw [Array.size_push]
    exact Nat.lt_succ_self _
  have hcls : made.heap.classOf i = c := congrArg Instance.cls (getD_push_size s.heap.objects _)
  rw [heq, Exec.run, bind_apply] at h
  rw [Exec.run] at hfilling
  generalize filling (evaluator fuel) made = r at h hfilling
  rcases r with ⟨_ | _ | _, u⟩
  · cases h
    refine ⟨rfl, ((hfilling i hmade).2).trans hcls, fun j hj => ?_⟩
    obtain ⟨hlt, hsame⟩ := hkeeps j hj
    obtain ⟨hlt', hsame'⟩ := hfilling j hlt
    exact ⟨hlt', hsame'.trans hsame⟩
  · cases h
  · cases h

/-- So does calling the class. -/
theorem invoke_constructor_gives {fuel : Nat} {slot : Option Nat} {c : ClassDef}
    {ctor : Option (ConstructorDecl Node)} {args : List Value} {caller : Nat} {s t : State} {v : Value}
    (h : (invoke slot (.constructor c ctor) args caller).run fuel s = (.value v, t)) :
    v = .object s.heap.objects.size ∧ t.heap.classOf s.heap.objects.size = c ∧ s.heap.Keeps t.heap := by
  let counted := s.withMeter s.session.meter.countFunctionCall
  have hcall : asCall c.name (withResume [] (instantiate c ctor args)) (evaluator fuel) counted = (.value v, t) := h
  rw [asCall_apply] at hcall
  cases hpush : counted.session.calls.push c.name with
  | error e =>
    rw [hpush] at hcall
    cases hcall
  | ok calls =>
    rw [hpush] at hcall
    let entered := (counted.withCalls calls).withResume []
    have hbody := @instantiate_gives fuel c ctor args entered
    have hinside : withResume [] (instantiate c ctor args) (evaluator fuel) (counted.withCalls calls) =
        (((instantiate c ctor args).run fuel entered).1,
          ((instantiate c ctor args).run fuel entered).2.withResume counted.session.resume) := rfl
    dsimp only at hcall
    rw [hinside] at hcall
    generalize (instantiate c ctor args).run fuel entered = r at hcall hbody
    rcases r with ⟨_ | k | _, u⟩
    · cases hcall
      exact @hbody u v rfl
    · cases k <;> cases hcall
    · cases hcall

/-! ## Hosts -/

namespace Host

variable {given : ClassDef → Prop} {host : Host}

/-- **A class is registered wholly or not at all.**  In every session of every host that arises, and at every
moment of answering a request, whatever is registered next: it fails, for a superclass that is not known or
because the name is taken, or the session gains the merged class with a function for each way to call it, and
nothing else (`Session.Gains`).  A class that lists itself fails.  A class definition that fails leaves the
state as it was, and one that succeeds leaves everything but the session.  What calling the functions gives is
a new object of the class, and every object there was keeps its own. -/
theorem registers_wholly (h : host.Arises given) :
    (∀ {k : Nat} {s : Session}, host.sessions[k]? = some s → s.RegistersWholly) ∧
      (∀ (r : Request) (fuel : Nat) (alarm : State → Bool) (react : Exec Unit),
        (∀ k f, r = .addFunction k f → f.Makes (host.Knows given)) →
        (∀ t : State, t.session.RegistersWholly → alarm t = false) →
        host.answer (fun _ => evaluator fuel) r = host.answer (fun _ => observed alarm react fuel) r) ∧
      (∀ (s : Session) (r : Registration), s.RegistersWholly → r.name ∈ r.superclasses →
        ∃ e, s.register r = .error e) ∧
      (∀ (d : ClassDecl Node) (scope : Nat) (ev : Evaluator) (u : State),
        dispatch (.classDef d) scope ev u =
          match u.session.register ⟨d, []⟩ with
          | .ok t => (.value .null, u.withSession t)
          | .error e => (.signal (.error e), u)) ∧
      ∀ (fuel : Nat) (slot : Option Nat) (c : ClassDef) (ctor : Option (ConstructorDecl Node))
        (args : List Value) (caller : Nat) (u t : State) (v : Value),
        (invoke slot (.constructor c ctor) args caller).run fuel u = (.value v, t) →
        v = .object u.heap.objects.size ∧ t.heap.classOf u.heap.objects.size = c ∧
          u.heap.Keeps t.heap := by
  refine ⟨fun hs => ?_, fun r fuel alarm react hr halarm => ?_, fun _ _ hs hself => hs.register_self hself,
    dispatch_classDef, fun _ _ _ _ _ _ _ _ _ hcall => invoke_constructor_gives hcall⟩
  · obtain ⟨_, hbook⟩ := (h.classed.session hs).registered
    exact Session.registersWholly hbook
  · have hready : ((Grounds.hierarchy (host.Knows given)).alike (evaluator fuel)
        (observed alarm react fuel)).Ready := by
      apply Grounds.ready_observed (fun _ => Grounds.lawful_hierarchy rfl fun _ _ _ => ⟨rfl, rfl⟩)
      intro _ t ht
      obtain ⟨_, hbook⟩ := ht.session.registered
      exact halarm t (Session.registersWholly hbook)
    exact (h.classed.answer hready hr).1

/-- The error with which registering fails. -/
def failure? (result : Except EvalError Session) : Option EvalError :=
  match result with
  | .error e => some e
  | .ok _ => none

/-- Below a diamond a class is registered wholly, and one that lists itself fails like one whose name is taken;
what is registered at each moment of defining a class is registered wholly. -/
theorem registers_wholly_diamond :
    ∃ s, diamondHost.sessions[0]? = some s ∧ s.RegistersWholly ∧
      (∃ c t, s.register ⟨⟨"Below", ["Bottom"], [], [], [⟨[], .literal .null⟩]⟩, []⟩ = .ok t ∧ s.Gains c t) ∧
      failure? (s.register ⟨⟨"Loop", ["Top", "Loop"], [], [], []⟩, []⟩) =
        some (.of (.undefinedClass "Loop")) ∧
      failure? (s.register ⟨⟨"Left", ["Top"], [], [], []⟩, []⟩) =
        some (.of (.custom "Class Left already defined")) ∧
      ∀ (alarm : State → Bool) (react : Exec Unit),
        (∀ t : State, t.session.RegistersWholly → alarm t = false) →
        diamondHost.answer (fun _ => evaluator 10) (.evaluate 0 (.classDef ⟨"Below", ["Bottom"], [], [], []⟩)) =
          diamondHost.answer (fun _ => observed alarm react 10)
            (.evaluate 0 (.classDef ⟨"Below", ["Bottom"], [], [], []⟩)) := by
  obtain ⟨hsessions, hmoments, -⟩ := registers_wholly (arises_diamondHost fun _ => False)
  have hfound : (diamondHost.sessions[0]?.map fun s =>
      [failure? (s.register ⟨⟨"Below", ["Bottom"], [], [], [⟨[], .literal .null⟩]⟩, []⟩),
        failure? (s.register ⟨⟨"Loop", ["Top", "Loop"], [], [], []⟩, []⟩),
        failure? (s.register ⟨⟨"Left", ["Top"], [], [], []⟩, []⟩)]) =
      some [none, some (.of (.undefinedClass "Loop")),
        some (.of (.custom "Class Left already defined"))] := by decide +kernel
  obtain ⟨s, hs, hfailures⟩ := Option.map_eq_some_iff.mp hfound
  injection hfailures with hbelow hrest
  injection hrest with hloop hrest
  injection hrest with hleft _
  refine ⟨s, hs, hsessions hs, ?_, hloop, hleft, fun alarm react halarm =>
    hmoments _ 10 alarm react (fun _ _ h => by cases h) halarm⟩
  have hregistering := hsessions hs ⟨⟨"Below", ["Bottom"], [], [], [⟨[], .literal .null⟩]⟩, []⟩
  generalize s.register ⟨⟨"Below", ["Bottom"], [], [], [⟨[], .literal .null⟩]⟩, []⟩ = result at hbelow hregistering
  cases hregistering with
  | unknown => cases hbelow
  | taken => cases hbelow
  | added _ _ hgains => exact ⟨_, _, rfl, hgains⟩

end Host
end TreeScript
