import TreeScript.Proofs.CallSites
import TreeScript.Proofs.Logic.Basic

/-
# How many arguments code takes

A body binds its parameters to its arguments one by one, so it should begin only with as many arguments as
it has parameters.  Nothing checks this when it begins: it rests on how code is found.  Functions and
methods are found by keys that hold how many arguments they take, constructors by the number of their
parameters.

Here code is `Built` if it has been made in one of the ways in which there is code at all: from
declarations, as native code, and by building classes over classes.  What is found among built code for a
number of arguments takes this number (`ClassDef.Built.takes_method`, `ClassDef.Built.begins`,
`Catalog.Sound.callee`).  The nodes from which code is made have a property `ok`, which the nodes that it
evaluates have then.
-/

namespace TreeScript

/-! ## Tables -/

namespace Table

variable {κ α : Type} [DecidableEq κ] {P : κ → α → Prop} {t t' : Table κ α}

/-- Every entry has a property. -/
def All (P : κ → α → Prop) (t : Table κ α) : Prop := ∀ e ∈ t.entries, P e.1 e.2

theorem All.find? (h : t.All P) {k : κ} {v : α} (hv : t.find? k = some v) : P k v :=
  h (k, v) (mem_of_find? hv)

omit [DecidableEq κ] in
theorem all_empty (P : κ → α → Prop) : (empty : Table κ α).All P := by
  intro e he
  cases he

theorem All.insert (h : t.All P) {k : κ} {v : α} (hv : P k v) : (t.insert k v).All P := by
  intro e he
  rcases mem_insert he with rfl | he
  · exact hv
  · exact h e he

/-- Values that are inserted under keys of their own. -/
theorem All.insertAll {β : Type} (h : t.All P) (key : β → κ) (value : β → α) {items : List β}
    (hvalue : ∀ b ∈ items, P (key b) (value b)) :
    (items.foldl (fun t b => t.insert (key b) (value b)) t).All P := by
  induction items generalizing t with
  | nil => exact h
  | cons b items ih =>
    refine ih (h.insert (hvalue b List.mem_cons_self)) fun b' hb' => ?_
    exact hvalue b' (List.mem_cons_of_mem b hb')

theorem All.inherit (h : t.All P) (h' : t'.All P) : (ClassDef.inheritTable t t').All P := by
  unfold ClassDef.inheritTable
  obtain ⟨entries⟩ := t'
  induction entries generalizing t with
  | nil => exact h
  | cons e entries ih =>
    have hrest : (Table.mk entries).All P := fun e' he' => h' e' (List.mem_cons_of_mem e he')
    dsimp only [List.foldl_cons]
    split
    · exact ih h hrest
    · exact ih (h.insert (h' e List.mem_cons_self)) hrest

end Table

/-! ## Routines -/

section
variable {ok ok' : Node → Prop}

/-- Routines are made from declarations, or are native code with parameters or for any number of
arguments. -/
inductive Routine.Built (ok : Node → Prop) : Routine → Prop
  | ofDecl {d : FunctionDecl Node} : ok d.body → Built ok (.ofDecl d)
  | native (name : String) (ps : List Param) (returns : TypeKind) {action : NativeAction} :
      (∀ e, action = .evaluate e → ok e) → Built ok ⟨name, .fixed ps, returns, .native action⟩
  | variadic (name : String) (returns : TypeKind) {action : NativeAction} :
      (∀ e, action = .evaluate e → ok e) → Built ok ⟨name, .variadic, returns, .native action⟩

/-- A body begins with a number of arguments only if it has as many parameters. -/
structure Routine.Takes (ok : Node → Prop) (r : Routine) (n : Nat) : Prop where
  length : (∀ action, r.body ≠ .native action) → r.params.length = n
  code : ∀ {e}, r.body.code? = some e → ok e

theorem Arity.eq_of_accepts {m n : Nat} (h : (Arity.exact m).accepts n = true) : m = n := eq_of_beq h

theorem RoutineBody.eq_of_code? {action : NativeAction} {e : Node}
    (h : (native action).code? = some e) : action = .evaluate e := by
  unfold RoutineBody.code? at h
  split at h <;> rename_i heq <;> cases heq <;> cases h
  rfl

namespace Routine

variable {r : Routine}

theorem code?_ofDecl (d : FunctionDecl Node) : (ofDecl d).body.code? = some d.body := by
  unfold ofDecl
  dsimp only
  split <;> rfl

theorem Built.takes (h : r.Built ok) {n : Nat} (hn : r.arity.accepts n = true) : r.Takes ok n := by
  cases h with
  | @ofDecl d hbody =>
    refine ⟨fun _ => Arity.eq_of_accepts hn, fun {e} he => ?_⟩
    cases (code?_ofDecl d).symm.trans he
    exact hbody
  | native _ _ _ hcode | variadic _ _ hcode =>
    exact ⟨fun hbody => absurd rfl (hbody _), fun he => hcode _ (RoutineBody.eq_of_code? he)⟩

theorem Built.mono (hok : ∀ e, ok e → ok' e) (h : r.Built ok) : r.Built ok' := by
  cases h with
  | ofDecl hbody => exact .ofDecl (hok _ hbody)
  | native _ _ _ hcode => exact .native _ _ _ fun e he => hok e (hcode e he)
  | variadic _ _ hcode => exact .variadic _ _ fun e he => hok e (hcode e he)

theorem Takes.mono (hok : ∀ e, ok e → ok' e) {n : Nat} (h : r.Takes ok n) : r.Takes ok' n :=
  ⟨h.length, fun he => hok _ (h.code he)⟩

end Routine

/-! ## Classes -/

/-- The nodes in the declaration of a class. -/
structure ClassDecl.Codes (ok : Node → Prop) (d : ClassDecl Node) : Prop where
  fields : ∀ f ∈ d.fields, ∀ e, f.default? = some e → ok e
  methods : ∀ m ∈ d.methods, ok m.body
  constructors : ∀ c ∈ d.constructors, ok c.body

/-- Classes are built from declarations over classes that are built themselves, and may be given further
methods. -/
inductive ClassDef.Built (ok : Node → Prop) : ClassDef → Prop
  | build {d : ClassDecl Node} {known : String → Option ClassDef} {c : ClassDef} : d.Codes ok →
      (∀ name b, known name = some b → Built ok b) → ClassDef.build d known = .ok c → Built ok c
  | withMethod {c : ClassDef} {m : Routine} : Built ok c → m.Built ok → Built ok (c.withMethod m)

/-- A constructor begins with a number of arguments only if it has as many parameters. -/
def ConstructorDecl.Takes (ok : Node → Prop) (n : Nat) (d : ConstructorDecl Node) : Prop :=
  d.params.length = n ∧ ok d.body

theorem ClassDecl.Codes.mono (hok : ∀ e, ok e → ok' e) {d : ClassDecl Node} (h : d.Codes ok) :
    d.Codes ok' where
  fields f hf e he := hok e (h.fields f hf e he)
  methods m hm := hok _ (h.methods m hm)
  constructors c hc := hok _ (h.constructors c hc)

namespace ClassDef

/-- Methods are found by the number of arguments that they take. -/
def MethodFits (ok : Node → Prop) (key : String × Arity) (m : Routine) : Prop :=
  m.Built ok ∧ m.arity = key.2

variable {c : ClassDef} {d : ClassDecl Node} {known : String → Option ClassDef}

theorem Built.mono (hok : ∀ e, ok e → ok' e) (h : c.Built ok) : c.Built ok' := by
  induction h with
  | build hd _ hbuild ih => exact .build (hd.mono hok) ih hbuild
  | withMethod _ hm ih => exact .withMethod ih (hm.mono hok)

/-! ### Building -/

/-- What follows a result begins with it. -/
theorem exists_of_bind {ε α β : Type} {x : Except ε α} {f : α → Except ε β} {b : β}
    (h : x >>= f = .ok b) : ∃ a, x = .ok a ∧ f a = .ok b := by
  cases x with
  | error e => cases h
  | ok a => exact ⟨a, rfl, h⟩

/-- What all results of a computation have in common, its results for a list have. -/
theorem forall_of_mapM {ε α β : Type} {f : α → Except ε β} {P : β → Prop}
    (hf : ∀ a b, f a = .ok b → P b) {as : List α} {bs : List β} (h : as.mapM f = .ok bs) :
    ∀ b ∈ bs, P b := by
  induction as generalizing bs with
  | nil =>
    cases h
    exact fun b hb => by cases hb
  | cons a as ih =>
    rw [List.mapM_cons] at h
    obtain ⟨b, hb, h⟩ := exists_of_bind h
    obtain ⟨bs', hbs, h⟩ := exists_of_bind h
    cases h
    intro b' hb'
    rcases List.mem_cons.mp hb' with rfl | hb'
    · exact hf a b' hb
    · exact ih hbs b' hb'

/-- The superclasses of a class that is built are known, and its members are those of its declaration with
theirs copied in. -/
theorem exists_of_build (h : build d known = .ok c) :
    ∃ supers : List ClassDef, (∀ s ∈ supers, ∃ name, known name = some s) ∧
      c.fields = supers.foldl (fun fs s => inheritFields fs s.fields) (ownFields d.fields) ∧
      c.methods = supers.foldl (fun t s => inheritTable t s.methods)
        (d.methods.foldl (fun t m => t.insert (m.name, .exact m.params.length) (.ofDecl m)) .empty) ∧
      c.constructors = supers.foldl (fun t s => inheritTable t s.constructors)
        (d.constructors.foldl (fun t c => t.insert c.params.length c) .empty) := by
  unfold build at h
  obtain ⟨supers, hsupers, h⟩ := exists_of_bind h
  cases h
  refine ⟨supers, forall_of_mapM (fun name b hb => ?_) hsupers, rfl, rfl, rfl⟩
  split at hb
  · rename_i hknown
    cases hb
    exact ⟨name, hknown⟩
  · cases hb

/-- The fields that a class declares are those of its declaration. -/
theorem mem_of_mem_ownFields {declared : List (FieldDecl Node)} {f : FieldDecl Node}
    (hf : f ∈ ownFields declared) : f ∈ declared := by
  -- by induction on the declarations that are still to come, whatever has been collected before
  have hstep : ∀ fs : List (FieldDecl Node), (∀ g ∈ fs, g ∈ declared) → ∀ ds : List (FieldDecl Node),
      (∀ g ∈ ds, g ∈ declared) → ∀ g ∈ ds.foldl (fun fs f =>
        if fs.any (·.name == f.name) then fs.map fun g => if g.name == f.name then f else g
        else fs ++ [f]) fs, g ∈ declared := by
    intro fs hfs ds hds
    induction ds generalizing fs with
    | nil => exact hfs
    | cons d ds ih =>
      have hd : d ∈ declared := hds d List.mem_cons_self
      refine ih _ (fun g hg => ?_) fun g hg => hds g (List.mem_cons_of_mem d hg)
      dsimp only at hg
      split at hg
      · obtain ⟨g', hg', rfl⟩ := List.mem_map.mp hg
        split
        · exact hd
        · exact hfs g' hg'
      · rcases List.mem_append.mp hg with hg | hg
        · exact hfs g hg
        · exact List.mem_singleton.mp hg ▸ hd
  exact hstep [] (fun _ h => by cases h) declared (fun _ h => h) f hf

/-- Fields are declared, or a superclass has them. -/
theorem mem_of_mem_inheritFields {supers : List ClassDef} {fs : List (FieldDecl Node)}
    {f : FieldDecl Node} (hf : f ∈ supers.foldl (fun fs s => inheritFields fs s.fields) fs) :
    f ∈ fs ∨ ∃ s ∈ supers, f ∈ s.fields := by
  induction supers generalizing fs with
  | nil => exact .inl hf
  | cons s supers ih =>
    rcases ih hf with hf | ⟨s', hs', hf⟩
    · rcases List.mem_append.mp hf with hf | hf
      · exact .inl hf
      · exact .inr ⟨s, List.mem_cons_self, (List.mem_filter.mp hf).1⟩
    · exact .inr ⟨s', List.mem_cons_of_mem s hs', hf⟩

/-- Tables into which those of the superclasses are copied. -/
theorem all_inheritTables {κ α : Type} [DecidableEq κ] {P : κ → α → Prop}
    {table : ClassDef → Table κ α} {supers : List ClassDef} (h : ∀ s ∈ supers, (table s).All P)
    {t : Table κ α} (ht : t.All P) :
    (supers.foldl (fun t s => inheritTable t (table s)) t).All P := by
  induction supers generalizing t with
  | nil => exact ht
  | cons s supers ih =>
    refine ih (fun s' hs' => h s' (List.mem_cons_of_mem s hs')) ?_
    exact ht.inherit (h s List.mem_cons_self)

/-! ### Members -/

theorem members_withMethod (c : ClassDef) (m : Routine) :
    (c.withMethod m).fields = c.fields ∧
      (c.withMethod m).methods = c.methods.insert (m.name, m.arity) m ∧
      (c.withMethod m).constructors = c.constructors := by
  cases c
  exact ⟨rfl, rfl, rfl⟩

theorem Built.default (h : c.Built ok) {f : FieldDecl Node} (hf : f ∈ c.fields) {e : Node}
    (he : f.default? = some e) : ok e := by
  induction h with
  | build hd _ hbuild ih =>
    obtain ⟨supers, hsupers, hfields, -, -⟩ := exists_of_build hbuild
    rw [hfields] at hf
    rcases mem_of_mem_inheritFields hf with hf | ⟨s, hs, hf⟩
    · exact hd.fields f (mem_of_mem_ownFields hf) e he
    · obtain ⟨name, hname⟩ := hsupers s hs
      exact ih name s hname hf
  | @withMethod c m _ _ ih => exact ih ((members_withMethod c m).1 ▸ hf)

theorem Built.all_methods (h : c.Built ok) : c.methods.All (MethodFits ok) := by
  induction h with
  | build hd _ hbuild ih =>
    obtain ⟨supers, hsupers, -, hmethods, -⟩ := exists_of_build hbuild
    rw [hmethods]
    refine all_inheritTables (fun s hs => ?_) ?_
    · obtain ⟨name, hname⟩ := hsupers s hs
      exact ih name s hname
    · exact (Table.all_empty _).insertAll _ _ fun m hm => ⟨.ofDecl (hd.methods m hm), rfl⟩
  | @withMethod c m _ hm ih =>
    rw [(members_withMethod c m).2.1]
    exact ih.insert ⟨hm, rfl⟩

theorem Built.all_constructors (h : c.Built ok) :
    c.constructors.All (ConstructorDecl.Takes ok) := by
  induction h with
  | build hd _ hbuild ih =>
    obtain ⟨supers, hsupers, -, -, hconstructors⟩ := exists_of_build hbuild
    rw [hconstructors]
    refine all_inheritTables (fun s hs => ?_) ?_
    · obtain ⟨name, hname⟩ := hsupers s hs
      exact ih name s hname
    · exact (Table.all_empty (ConstructorDecl.Takes ok)).insertAll
        (fun d : ConstructorDecl Node => d.params.length) (fun d => d)
        fun d' hd' => ⟨rfl, hd.constructors d' hd'⟩
  | @withMethod c m _ _ ih =>
    rw [(members_withMethod c m).2.2]
    exact ih

/-- A method that is found for a number of arguments takes them. -/
theorem Built.takes_method (h : c.Built ok) {name : String} {n : Nat} {m : Routine}
    (hm : c.method? name n = some m) : m.Takes ok n := by
  rcases Option.or_eq_some_iff.mp hm with hm | ⟨-, hm⟩
  · obtain ⟨hbuilt, harity⟩ := h.all_methods.find? hm
    exact hbuilt.takes (harity ▸ beq_self_eq_true n)
  · obtain ⟨hbuilt, harity⟩ := h.all_methods.find? hm
    exact hbuilt.takes (harity ▸ rfl)

/-- A constructor that is found for a number of arguments takes them. -/
theorem Built.takes_constructor (h : c.Built ok) {n : Nat} {d : ConstructorDecl Node}
    (hd : c.constructor? n = some d) : d.Takes ok n :=
  h.all_constructors.find? hd

/-- Where there is no class, there is one without members. -/
theorem built_default : (default : ClassDef).Built ok := by
  -- it is the class of an empty declaration
  have hbuild : ClassDef.build ⟨"", [], [], [], []⟩ (fun _ => none) = .ok default := rfl
  refine .build ⟨?_, ?_, ?_⟩ ?_ hbuild
  · exact fun _ h => by cases h
  · exact fun _ h => by cases h
  · exact fun _ h => by cases h
  · exact fun _ _ h => by cases h

end ClassDef

/-! ## Functions -/

/-- Functions are routines, those of the core library, and constructors of classes. -/
inductive Function.Built (ok : Node → Prop) : Function → Prop
  | routine {r : Routine} : r.Built ok → Built ok (.routine r)
  | core (c : CoreFunction) : Built ok (.core c)
  | constructor {c : ClassDef} {decl? : Option (ConstructorDecl Node)} : c.Built ok →
      (∀ d, decl? = some d → ok d.body) → Built ok (.constructor c decl?)

namespace Function

variable {f : Function} {n : Nat}

/-- What a function runs takes a number of arguments. -/
inductive Takes (ok : Node → Prop) : Function → Nat → Prop
  | routine {r : Routine} {n : Nat} : r.Takes ok n → Takes ok (.routine r) n
  | core (c : CoreFunction) (n : Nat) : Takes ok (.core c) n
  | constructor {c : ClassDef} {decl? : Option (ConstructorDecl Node)} {n : Nat} : c.Built ok →
      (∀ d, decl? = some d → d.Takes ok n) → Takes ok (.constructor c decl?) n

theorem Built.takes (h : f.Built ok) (hn : f.arity.accepts n = true) : f.Takes ok n := by
  cases h with
  | routine hr => exact .routine (hr.takes hn)
  | core c => exact .core c n
  | constructor hc hbody =>
    refine .constructor hc fun d hd => ⟨?_, hbody d hd⟩
    subst hd
    exact Arity.eq_of_accepts hn

theorem Built.mono (hok : ∀ e, ok e → ok' e) (h : f.Built ok) : f.Built ok' := by
  cases h with
  | routine hr => exact .routine (hr.mono hok)
  | core c => exact .core c
  | constructor hc hbody => exact .constructor (hc.mono hok) fun d hd => hok _ (hbody d hd)

theorem Takes.mono (hok : ∀ e, ok e → ok' e) (h : f.Takes ok n) : f.Takes ok' n := by
  cases h with
  | routine hr => exact .routine (hr.mono hok)
  | core c => exact .core c n
  | constructor hc hd => exact .constructor (hc.mono hok) fun d h => ⟨(hd d h).1, hok _ (hd d h).2⟩

end Function

/-! ## Catalogs -/

/-- A catalog of built functions, which finds them by their names and by how many arguments they take. -/
structure Catalog.Sound (ok : Node → Prop) (c : Catalog) : Prop where
  built : ∀ {slot f}, c.get? slot = some f → f.Built ok
  indexed : ∀ {key slot}, c.index.find? key = some slot →
    ∃ f, c.get? slot = some f ∧ f.name = key.1 ∧ f.arity = key.2

namespace Catalog

variable {c : Catalog}

theorem sound_empty : empty.Sound ok where
  built h := by cases h
  indexed h := by cases h

theorem Sound.mono (hok : ∀ e, ok e → ok' e) (h : c.Sound ok) : c.Sound ok' :=
  ⟨fun hf => (h.built hf).mono hok, h.indexed⟩

theorem Sound.add (h : c.Sound ok) {f : Function} (hf : f.Built ok) : (c.add f).2.Sound ok where
  built {slot g} hg := by
    rcases eq_or_get?_of_add hg with rfl | hg
    · exact hf
    · exact h.built hg
  indexed {key slot} hkey := by
    change (c.index.insert (f.name, f.arity) c.slots.size).find? key = some slot at hkey
    rw [Table.find?_insert] at hkey
    split at hkey
    · rename_i heq
      subst heq
      cases hkey
      exact ⟨f, Array.getElem?_push_size, rfl, rfl⟩
    · obtain ⟨g, hg, hname, harity⟩ := h.indexed hkey
      exact ⟨g, get?_add f hg, hname, harity⟩

theorem Sound.remove (h : c.Sound ok) (name : String) (arity : Arity) :
    (c.remove name arity).2.Sound ok where
  built hf := h.built ((get?_remove c name arity _).symm.trans hf)
  indexed {key slot} hkey := by
    rw [get?_remove]
    unfold Catalog.remove at hkey
    split at hkey
    · change (c.index.erase (name, arity)).find? key = some slot at hkey
      rw [Table.find?_erase] at hkey
      split at hkey
      · cases hkey
      · exact h.indexed hkey
    · exact h.indexed hkey

/-- What the catalog finds for a call goes by its name and takes its arguments. -/
theorem Sound.callee (h : c.Sound ok) {name : String} {n slot : Nat} {f : Function}
    (hf : c.callee? name n = some (slot, f)) :
    c.get? slot = some f ∧ f.name = name ∧ f.arity.accepts n = true := by
  have hget := get?_of_callee? hf
  obtain ⟨k, hk, hslot⟩ := Option.bind_eq_some_iff.mp hf
  obtain ⟨g, hg, hkg⟩ := Option.bind_eq_some_iff.mp hslot
  cases hkg
  refine ⟨hget, ?_⟩
  rcases Option.or_eq_some_iff.mp hk with hk | ⟨-, hk⟩
  · obtain ⟨g, hg', hname, harity⟩ := h.indexed hk
    cases hg.symm.trans hg'
    exact ⟨hname, harity ▸ beq_self_eq_true n⟩
  · obtain ⟨g, hg', hname, harity⟩ := h.indexed hk
    cases hg.symm.trans hg'
    exact ⟨hname, harity ▸ rfl⟩

end Catalog

/-! ## Sessions -/

/-- The functions and classes of a session are built, and found for what they take. -/
structure Session.Sound (ok : Node → Prop) (s : Session) : Prop where
  catalog : s.catalog.Sound ok
  classes : ∀ {name c}, s.classes.find? name = some c → c.Built ok

namespace Session

variable {s t : Session}

theorem Sound.mono (hok : ∀ e, ok e → ok' e) (h : s.Sound ok) : s.Sound ok' :=
  ⟨h.catalog.mono hok, fun hc => (h.classes hc).mono hok⟩

theorem Sound.addFunction (h : s.Sound ok) {f : Function} (hf : f.Built ok) :
    (s.addFunction f).Sound ok :=
  ⟨h.catalog.add hf, h.classes⟩

theorem Sound.addFunctions (h : s.Sound ok) {fs : List Function} (hfs : ∀ f ∈ fs, f.Built ok) :
    (fs.foldl Session.addFunction s).Sound ok :=
  List.foldlRecOn fs _ h fun _ hs f hf => hs.addFunction (hfs f hf)

/-- A class that is added leaves the functions that there are in their slots. -/
theorem get?_addClass {c : ClassDef} (ht : s.addClass c = .ok t) {slot : Nat} {f : Function}
    (hf : s.catalog.get? slot = some f) : t.catalog.get? slot = some f := by
  obtain ⟨-, rfl⟩ := addClass_eq_ok.mp ht
  exact List.foldlRecOn (motive := fun s : Session => s.catalog.get? slot = some f) _ _ hf fun _ hs g _ =>
    Catalog.get?_add g hs

/-- The functions by which a class is called are built with it. -/
theorem built_of_constructorsOf {c : ClassDef} (hc : c.Built ok) :
    ∀ f ∈ constructorsOf c, f.Built ok := by
  intro f hf
  unfold constructorsOf at hf
  split at hf
  · cases List.mem_singleton.mp hf
    exact .constructor hc fun _ h => by cases h
  · obtain ⟨⟨n, d⟩, hd, rfl⟩ := List.mem_map.mp hf
    have hentry : (n, d) ∈ c.constructors.entries := List.mem_mergeSort.mp hd
    refine .constructor hc fun d' hd' => ?_
    cases hd'
    exact (hc.all_constructors (n, d) hentry).2

theorem Sound.addClass (h : s.Sound ok) {c : ClassDef} (hc : c.Built ok) (ht : s.addClass c = .ok t) :
    t.Sound ok := by
  obtain ⟨-, rfl⟩ := addClass_eq_ok.mp ht
  refine Sound.addFunctions (s := { s with classes := s.classes.insert c.name c })
    ⟨h.catalog, fun {name b} hb => ?_⟩ (built_of_constructorsOf hc)
  change (s.classes.insert c.name c).find? name = some b at hb
  rw [Table.find?_insert] at hb
  split at hb
  · cases hb
    exact hc
  · exact h.classes hb

theorem Sound.defineClass (h : s.Sound ok) {d : ClassDecl Node} (hd : d.Codes ok)
    (ht : s.defineClass d = .ok t) : t.Sound ok := by
  obtain ⟨c, hbuild, hadd⟩ := exists_of_defineClass ht
  exact h.addClass (.build hd (fun _ _ => h.classes) hbuild) hadd

/-- A session starts with the class of exceptions, and with the core library if it is wanted. -/
theorem sound_new (hcodes : exceptionDecl.Codes ok) (id root : Nat) (settings : Settings) :
    (Session.new id root settings).Sound ok := by
  have hblank : (blank id root settings).Sound ok := ⟨Catalog.sound_empty, fun h => by cases h⟩
  have hexception : (blank id root settings).addExceptionClass.Sound ok := by
    unfold addExceptionClass
    split
    · rename_i c hbuild
      have hgetMessage : getMessage.Built ok := .native _ _ _ fun _ h => by cases h
      have hbuilt : (c.withMethod getMessage).Built ok :=
        .withMethod (.build hcodes (fun _ _ h => by cases h) hbuild) hgetMessage
      split
      · rename_i hadd
        exact hblank.addClass hbuilt hadd
      · exact hblank
    · exact hblank
  unfold Session.new
  dsimp only
  split
  · unfold addCoreLibrary
    rw [← List.foldl_map]
    refine hexception.addFunctions fun f hf => ?_
    obtain ⟨c, -, rfl⟩ := List.mem_map.mp hf
    exact .core c
  · exact hexception

end Session
end
end TreeScript
