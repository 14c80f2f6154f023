import TreeScript.Proofs.Arity.Code
import TreeScript.Proofs.Hierarchy.Merging

/-
# The walk of a hierarchy

A session knows its classes by name.  Each is built from a `Registration`, a declaration with the methods
that the host adds, over the classes that have been registered before it.  So what has been registered, in
the order of registration, is all there is to know of a hierarchy, and the *walk* of the class of a name goes
through it from left to right and depth first: the registration of the class itself, then the walks of its
superclasses in the order in which they are listed (`walk`).

A built class copies its members from its superclasses level by level, and never walks.  What it has is
nevertheless what the walk finds first (`ClassDef.Follows`): this holds of every class that is registered
(`Registered.follows`) and of every class that is built over them (`Registered.follows_build`).  In what
order the tables of the superclasses are gone through does not matter (`Registration.build_reordered`).
-/

namespace TreeScript

/-! ## Registrations -/

/-- What a class is built from: its declaration, and the methods that the host adds to it. -/
structure Registration where
  decl : ClassDecl Node
  hosted : List Routine := []

namespace Registration

/-- The name of the class. -/
def name (r : Registration) : String := r.decl.name

/-- The names of its superclasses. -/
def superclasses (r : Registration) : List String := r.decl.superclasses

/-- Build the class over classes that are known. -/
def build (r : Registration) (known : String → Option ClassDef) : Except EvalError ClassDef := do
  return r.hosted.foldl ClassDef.withMethod (← ClassDef.build r.decl known)

/-! ### What is declared -/

/-- The methods of the class itself, those that the host adds last. -/
def methods (r : Registration) : List Routine := r.decl.methods.map Routine.ofDecl ++ r.hosted

/-- The names of the fields that are declared. -/
def fieldNames (r : Registration) : List String := ClassDef.fieldNames r.decl.fields

/-- The last declaration of a field. -/
def field? (r : Registration) (name : String) : Option (FieldDecl Node) :=
  r.decl.fields.reverse.find? (·.name == name)

/-- The last declaration of a method, or what the host has put in its place. -/
def method? (r : Registration) (key : String × Arity) : Option Routine :=
  r.methods.reverse.find? fun m => (m.name, m.arity) = key

/-- The last declaration of a constructor with a number of parameters. -/
def constructor? (r : Registration) (arity : Nat) : Option (ConstructorDecl Node) :=
  r.decl.constructors.reverse.find? fun d => d.params.length = arity

end Registration

/-! ## The walk -/

/-- The hierarchy of the class of a name, from left to right and depth first.  Of what has been registered
the latest comes first. -/
def walk : List Registration → String → List Registration
  | [], _ => []
  | r :: earlier, name =>
    if r.name = name then r :: r.superclasses.flatMap (walk earlier) else walk earlier name

/-- The hierarchy of a class that is built over what has been registered. -/
def Registration.walk (r : Registration) (book : List Registration) : List Registration :=
  r :: r.superclasses.flatMap (TreeScript.walk book)

/-- What a class has is what is found first in a hierarchy, and it has nothing else.  Its fields stand in
the order in which the hierarchy names them first. -/
structure ClassDef.Follows (c : ClassDef) (hierarchy : List Registration) : Prop where
  field : ∀ name, c.field? name = hierarchy.findSome? (·.field? name)
  method : ∀ key, c.methods.find? key = hierarchy.findSome? (·.method? key)
  constructor : ∀ arity, c.constructors.find? arity = hierarchy.findSome? (·.constructor? arity)
  names : fieldNames c.fields = (hierarchy.flatMap (·.fieldNames)).eraseDups

/-- The classes that a session knows after registrations, of which the latest comes first: each has been
built over the classes that were known, and has a name that none of them had. -/
inductive Registered : List Registration → Table String ClassDef → Prop
  | none : Registered [] .empty
  | register {book : List Registration} {classes : Table String ClassDef} {r : Registration}
      {c : ClassDef} : Registered book classes → r.build classes.find? = .ok c →
      classes.contains c.name = false → Registered (r :: book) (classes.insert c.name c)

/-! ## Building -/

namespace ClassDef

/-- The class of a declaration with superclasses. -/
def merge (d : ClassDecl Node) (supers : List ClassDef) : ClassDef :=
  mk d.name supers
    (supers.foldl (fun fs s => inheritFields fs s.fields) (ownFields d.fields))
    (supers.foldl (fun t s => inheritTable t s.methods)
      ((d.methods.map Routine.ofDecl).foldl (fun t m => t.insert (m.name, m.arity) m) .empty))
    (supers.foldl (fun t s => inheritTable t s.constructors)
      (d.constructors.foldl (fun t d => t.insert d.params.length d) .empty))

/-- The class of a name, as a superclass. -/
def lookUp (known : String → Option ClassDef) (name : String) : Except EvalError ClassDef :=
  match known name with
  | some c => .ok c
  | none => .error (.of (.undefinedClass name))

theorem build_eq (d : ClassDecl Node) (known : String → Option ClassDef) :
    build d known = (d.superclasses.mapM (lookUp known) >>= fun supers => .ok (merge d supers)) := by
  unfold build merge
  simp only [List.foldl_map]
  rfl

variable {known known' : String → Option ClassDef} {d : ClassDecl Node} {c : ClassDef}

theorem mapM_lookUp_cons (name : String) (names : List String) :
    (name :: names).mapM (lookUp known) =
      match known name with
      | none => .error (.of (.undefinedClass name))
      | some s => (names.mapM (lookUp known)).map (s :: ·) := by
  rw [List.mapM_cons]
  unfold lookUp
  cases known name with
  | none => rfl
  | some s => cases names.mapM (lookUp known) <;> rfl

/-- All superclasses are known, and each is the class of its name. -/
theorem mapM_lookUp_eq_ok {names : List String} {supers : List ClassDef} :
    names.mapM (lookUp known) = .ok supers ↔
      List.Forall₂ (fun name s => known name = some s) names supers := by
  induction names generalizing supers with
  | nil =>
    rw [List.mapM_nil, List.forall₂_nil_left_iff]
    exact ⟨fun h => (Except.ok.inj h).symm, fun h => h ▸ rfl⟩
  | cons name names ih =>
    rw [mapM_lookUp_cons, List.forall₂_cons_left_iff]
    cases known name with
    | none => exact ⟨fun h => (by cases h), fun ⟨s, rest, hs, _⟩ => (by cases hs)⟩
    | some s =>
      constructor
      · intro h
        cases hrest : names.mapM (lookUp known) with
        | error e =>
          rw [hrest] at h
          cases h
        | ok rest =>
          rw [hrest] at h
          cases h
          exact ⟨s, rest, rfl, ih.mp hrest, rfl⟩
      · rintro ⟨t, rest, ht, hrest, rfl⟩
        cases ht
        rw [ih.mpr hrest]
        rfl

/-- The error names the first superclass that is not known. -/
theorem mapM_lookUp_eq_error {names : List String} {e : EvalError} :
    names.mapM (lookUp known) = .error e ↔
      ∃ before name after, names = before ++ name :: after ∧ (∀ n ∈ before, (known n).isSome = true) ∧
        known name = none ∧ e = .of (.undefinedClass name) := by
  induction names with
  | nil => exact iff_of_false nofun (by simp)
  | cons name names ih =>
    rw [mapM_lookUp_cons]
    cases hname : known name with
    -- the first name is the unknown one
    | none =>
      constructor
      · intro h
        cases h
        exact ⟨[], name, names, rfl, nofun, hname, rfl⟩
      · rintro ⟨before, unknown, after, hnames, hbefore, hunknown, rfl⟩
        cases before with
        | nil =>
          cases hnames
          rfl
        | cons first before =>
          cases hnames
          have hknown := hbefore name List.mem_cons_self
          rw [hname] at hknown
          cases hknown
    -- the first name is known, so it comes before the unknown one
    | some s =>
      have hrest : (names.mapM (lookUp known)).map (s :: ·) = .error e ↔
          names.mapM (lookUp known) = .error e := by
        cases names.mapM (lookUp known) <;> simp [Except.map]
      refine hrest.trans (ih.trans ⟨?_, ?_⟩)
      · rintro ⟨before, unknown, after, rfl, hbefore, hunknown, rfl⟩
        refine ⟨name :: before, unknown, after, rfl, ?_, hunknown, rfl⟩
        exact List.forall_mem_cons.mpr ⟨by rw [hname]; rfl, hbefore⟩
      · rintro ⟨before, unknown, after, hnames, hbefore, hunknown, rfl⟩
        cases before with
        | nil =>
          cases hnames
          cases hname.symm.trans hunknown
        | cons first before =>
          cases hnames
          exact ⟨before, unknown, after, rfl, (List.forall_mem_cons.mp hbefore).2, hunknown, rfl⟩

/-- Where the same names are known, the same name is the error. -/
theorem mapM_lookUp_congr (hknown : ∀ name, (known name).isSome = (known' name).isSome)
    {names : List String} {e : EvalError} (h : names.mapM (lookUp known) = .error e) :
    names.mapM (lookUp known') = .error e := by
  obtain ⟨before, name, after, rfl, hbefore, hname, rfl⟩ := mapM_lookUp_eq_error.mp h
  refine mapM_lookUp_eq_error.mpr ⟨before, name, after, rfl, fun n hn => ?_, ?_, rfl⟩
  · exact (hknown n).symm.trans (hbefore n hn)
  · have hnone := hknown name
    rw [hname] at hnone
    exact Option.isNone_iff_eq_none.mp (Option.isSome_eq_false_iff.mp hnone.symm)

theorem build_eq_ok : build d known = .ok c ↔
    ∃ supers, List.Forall₂ (fun name s => known name = some s) d.superclasses supers ∧
      c = merge d supers := by
  rw [build_eq]
  constructor
  · intro h
    obtain ⟨supers, hsupers, h⟩ := exists_of_bind h
    cases h
    exact ⟨supers, mapM_lookUp_eq_ok.mp hsupers, rfl⟩
  · rintro ⟨supers, hsupers, rfl⟩
    rw [mapM_lookUp_eq_ok.mpr hsupers]
    rfl

/-! ### Methods of the host -/

/-- The methods that the host adds change nothing but the methods. -/
theorem members_withMethods (ms : List Routine) (c : ClassDef) :
    (ms.foldl withMethod c).name = c.name ∧ (ms.foldl withMethod c).superclasses = c.superclasses ∧
      (ms.foldl withMethod c).fields = c.fields ∧
      (ms.foldl withMethod c).methods =
        ms.foldl (fun t m => t.insert (m.name, m.arity) m) c.methods ∧
      (ms.foldl withMethod c).constructors = c.constructors := by
  induction ms generalizing c with
  | nil => exact ⟨rfl, rfl, rfl, rfl, rfl⟩
  | cons m ms ih =>
    cases c
    exact ih _

end ClassDef

/-! ## What a built class has -/

namespace Registration

variable {known known' : String → Option ClassDef} {r : Registration} {c : ClassDef}

theorem build_eq_ok : r.build known = .ok c ↔
    ∃ supers, List.Forall₂ (fun name s => known name = some s) r.superclasses supers ∧
      c = r.hosted.foldl ClassDef.withMethod (.merge r.decl supers) := by
  constructor
  · intro h
    obtain ⟨b, hb, h⟩ := ClassDef.exists_of_bind h
    cases h
    obtain ⟨supers, hsupers, rfl⟩ := ClassDef.build_eq_ok.mp hb
    exact ⟨supers, hsupers, rfl⟩
  · rintro ⟨supers, hsupers, rfl⟩
    unfold build
    rw [ClassDef.build_eq_ok.mpr ⟨supers, hsupers, rfl⟩]
    rfl

/-- The members of a class that is built: what it declares counts before what its superclasses have. -/
structure Merges (r : Registration) (supers : List ClassDef) (c : ClassDef) : Prop where
  name : c.name = r.name
  superclasses : c.superclasses = supers
  field : ∀ name, c.field? name = (r.field? name).or (supers.findSome? (·.field? name))
  method : ∀ key,
    c.methods.find? key = (r.method? key).or (supers.findSome? (·.methods.find? key))
  constructor : ∀ arity,
    c.constructors.find? arity = (r.constructor? arity).or (supers.findSome? (·.constructors.find? arity))
  fields : c.fields = supers.foldl (fun fs s => ClassDef.inheritFields fs s.fields)
    (ClassDef.ownFields r.decl.fields)
  distinctMethods : c.methods.Distinct
  distinctConstructors : c.constructors.Distinct

theorem merges_of_build (h : r.build known = .ok c) :
    ∃ supers, List.Forall₂ (fun name s => known name = some s) r.superclasses supers ∧
      r.Merges supers c := by
  obtain ⟨supers, hsupers, rfl⟩ := build_eq_ok.mp h
  obtain ⟨hname, hsuperclasses, hfields, hmethods, hconstructors⟩ :=
    ClassDef.members_withMethods r.hosted (.merge r.decl supers)
  refine ⟨supers, hsupers, hname, hsuperclasses, fun name => ?_, fun key => ?_, fun arity => ?_, hfields,
    ?_, ?_⟩
  · unfold ClassDef.field?
    rw [hfields]
    exact (ClassDef.find?_inheritAll _ _ _).trans
      (congrArg (Option.or · _) (ClassDef.find?_ownFields r.decl.fields name))
  · rw [hmethods, Table.find?_declared]
    unfold ClassDef.merge ClassDef.methods method? methods
    dsimp only
    rw [Table.find?_inheritTables, Table.find?_declared, List.reverse_append, List.find?_append,
      Table.find?_empty, Option.or_none, Option.or_assoc]
  · rw [hconstructors]
    unfold ClassDef.merge ClassDef.constructors constructor?
    dsimp only
    rw [Table.find?_inheritTables, Table.find?_declared, Table.find?_empty, Option.or_none]
  · rw [hmethods]
    exact (((Table.distinct_empty.declared _ _).inheritTables _ supers).declared _ _)
  · rw [hconstructors]
    exact (Table.distinct_empty.declared _ _).inheritTables _ supers

/-- What is found first among superclasses is what is found first among what is known of their names. -/
theorem findSome?_eq {α β γ : Type} {f : β → Option γ} {g : α → Option γ} {names : List α}
    {supers : List β} (h : List.Forall₂ (fun name s => f s = g name) names supers) :
    supers.findSome? f = names.findSome? g := by
  induction h with
  | nil => rfl
  | cons hs _ ih => rw [List.findSome?_cons, List.findSome?_cons, hs, ih]

/-- If what superclasses have is what is found first in their hierarchies, then it is so of a class that is
merged from them. -/
theorem Merges.follows {supers : List ClassDef} (h : r.Merges supers c)
    {hierarchy : String → List Registration}
    (hsupers : List.Forall₂ (fun name s => s.Follows (hierarchy name)) r.superclasses supers) :
    c.Follows (r :: r.superclasses.flatMap hierarchy) where
  field name := by
    rw [h.field, findSome?_eq (hsupers.imp fun _ _ hs => hs.field name), List.findSome?_cons,
      findSome?_flatMap]
    cases r.field? name <;> rfl
  method key := by
    rw [h.method, findSome?_eq (hsupers.imp fun _ _ hs => hs.method key), List.findSome?_cons,
      findSome?_flatMap]
    cases r.method? key <;> rfl
  constructor arity := by
    rw [h.constructor, findSome?_eq (hsupers.imp fun _ _ hs => hs.constructor arity),
      List.findSome?_cons, findSome?_flatMap]
    cases r.constructor? arity <;> rfl
  names := by
    have hnames : List.Forall₂ (fun ns (s : ClassDef) => ClassDef.fieldNames s.fields = ns.eraseDups)
        (r.superclasses.map fun name => (hierarchy name).flatMap (·.fieldNames)) supers :=
      List.forall₂_map_left_iff.mpr (hsupers.imp fun _ _ hs => hs.names)
    rw [h.fields, ClassDef.names_inheritAll hnames (ClassDef.names_ownFields r.decl.fields),
      List.flatMap_cons, List.flatMap_assoc]
    rfl

end Registration

/-! ## Registered classes -/

namespace Registered

variable {book : List Registration} {classes : Table String ClassDef} {name : String} {c s : ClassDef}
variable {r : Registration}

/-- A registered class is known by its name. -/
theorem name_eq (h : Registered book classes) (hc : classes.find? name = some c) : c.name = name := by
  induction h with
  | none => cases hc
  | register _ _ _ ih =>
    rw [Table.find?_insert] at hc
    split at hc
    · rename_i hname
      cases hc
      exact hname.symm
    · exact ih hc

/-- What is registered stays known. -/
theorem find?_register {c' : ClassDef} (hnew : classes.contains c'.name = false)
    (hc : classes.find? name = some c) : (classes.insert c'.name c').find? name = some c := by
  rw [Table.find?_insert, if_neg ?_, hc]
  rintro rfl
  rw [Table.contains, hc] at hnew
  cases hnew

/-- What a registered class has is what the walk of its hierarchy finds first. -/
theorem follows (h : Registered book classes) (hc : classes.find? name = some c) :
    c.Follows (walk book name) := by
  induction h generalizing name c with
  | none => cases hc
  | @register book classes r b hbook hbuild hnew ih =>
    obtain ⟨supers, hsupers, hmerges⟩ := Registration.merges_of_build hbuild
    rw [Table.find?_insert] at hc
    unfold walk
    -- the class registered last is built from those before it, and the others are not touched
    by_cases hname : name = b.name
    · rw [if_pos hname] at hc
      rw [if_pos (hmerges.name.symm.trans hname.symm)]
      cases hc
      exact hmerges.follows (hsupers.imp fun _ _ hs => ih hs)
    · rw [if_neg hname] at hc
      rw [if_neg fun heq => hname (heq.symm.trans hmerges.name.symm)]
      exact ih hc

/-- What a class has that is built over registered classes is what the walk of its hierarchy finds first. -/
theorem follows_build (h : Registered book classes) (hbuild : r.build classes.find? = .ok c) :
    c.Follows (r.walk book) := by
  obtain ⟨supers, hsupers, hmerges⟩ := Registration.merges_of_build hbuild
  exact hmerges.follows (hsupers.imp fun _ _ hs => h.follows hs)

end Registered

/-! ## The order of entries -/

/-- The same class, whose tables of methods and constructors are gone through in another order. -/
structure ClassDef.Reordered (c c' : ClassDef) : Prop where
  name : c.name = c'.name
  fields : c.fields = c'.fields
  methods : c.methods.entries.Perm c'.methods.entries
  constructors : c.constructors.entries.Perm c'.constructors.entries

/-- The same classes are known by the same names, in any order of the entries of their tables. -/
def Reorders (known known' : String → Option ClassDef) : Prop :=
  ∀ name, Option.Rel ClassDef.Reordered (known name) (known' name)

/-- No key comes twice in the tables of a class. -/
structure ClassDef.Distinct (c : ClassDef) : Prop where
  methods : c.methods.Distinct
  constructors : c.constructors.Distinct

theorem Registered.distinct {book : List Registration} {classes : Table String ClassDef}
    (h : Registered book classes) {name : String} {c : ClassDef} (hc : classes.find? name = some c) :
    c.Distinct := by
  induction h with
  | none => cases hc
  | register _ hbuild _ ih =>
    rw [Table.find?_insert] at hc
    split at hc
    · obtain ⟨_, _, hmerges⟩ := Registration.merges_of_build hbuild
      cases hc
      exact ⟨hmerges.distinctMethods, hmerges.distinctConstructors⟩
    · exact ih hc

/-- Nothing that is found in a class depends on the order of its entries. -/
theorem ClassDef.Reordered.finds {c c' : ClassDef} (h : c.Reordered c') (hc : c.Distinct) :
    (∀ name, c'.field? name = c.field? name) ∧
      (∀ key, c'.methods.find? key = c.methods.find? key) ∧
      ∀ arity, c'.constructors.find? arity = c.constructors.find? arity := by
  refine ⟨fun name => ?_, hc.methods.find?_of_perm h.methods, hc.constructors.find?_of_perm h.constructors⟩
  unfold ClassDef.field?
  rw [h.fields]

/-- The superclasses, with their entries in another order. -/
theorem Reorders.exists_supers {known known' : String → Option ClassDef} (hknown : Reorders known known')
    (hdistinct : ∀ name c, known name = some c → c.Distinct) {names : List String}
    {supers : List ClassDef} (hsupers : List.Forall₂ (fun name s => known name = some s) names supers) :
    ∃ supers', List.Forall₂ (fun name s => known' name = some s) names supers' ∧
      List.Forall₂ (fun s s' => s.Distinct ∧ s.Reordered s') supers supers' := by
  induction hsupers with
  | nil => exact ⟨[], .nil, .nil⟩
  | @cons name s names supers hs _ ih =>
    obtain ⟨supers', hsupers', hreordered⟩ := ih
    have hname := hknown name
    rw [hs] at hname
    cases hs' : known' name with
    | none =>
      rw [hs'] at hname
      cases hname
    | some s' =>
      rw [hs'] at hname
      cases hname with
      | some hss' =>
        exact ⟨s' :: supers', .cons hs' hsupers', .cons ⟨hdistinct name s hs, hss'⟩ hreordered⟩

theorem Reorders.isSome_eq {known known' : String → Option ClassDef} (hknown : Reorders known known')
    (name : String) : (known name).isSome = (known' name).isSome := by
  have hname := hknown name
  generalize known name = a, known' name = b at hname
  cases hname <;> rfl

/-- What a class has stays what is found first, whatever the order of the entries. -/
theorem ClassDef.Follows.congr {c c' : ClassDef} {hierarchy : List Registration}
    (h : c.Follows hierarchy) (hsame : c.Reordered c') (hc : c.Distinct) : c'.Follows hierarchy where
  field name := ((hsame.finds hc).1 name).trans (h.field name)
  method key := ((hsame.finds hc).2.1 key).trans (h.method key)
  constructor arity := ((hsame.finds hc).2.2 arity).trans (h.constructor arity)
  names := hsame.fields ▸ h.names

/-- No field comes twice. -/
theorem ClassDef.Follows.nodup {c : ClassDef} {hierarchy : List Registration}
    (h : c.Follows hierarchy) : (fieldNames c.fields).Nodup :=
  h.names ▸ nodup_eraseDups _

namespace Registration

variable {known known' : String → Option ClassDef} {r : Registration}

/-- Classes that are merged from the same superclasses, with their entries in another order. -/
theorem Merges.reordered {supers supers' : List ClassDef} {c c' : ClassDef} (h : r.Merges supers c)
    (h' : r.Merges supers' c')
    (hsupers : List.Forall₂ (fun s s' => s.Distinct ∧ s.Reordered s') supers supers') :
    c.Reordered c' where
  name := h.name.trans h'.name.symm
  fields := by
    rw [h.fields, h'.fields]
    generalize ClassDef.ownFields r.decl.fields = fs
    -- fields are merged in the order of the superclasses, which is the same for both
    clear h h'
    induction hsupers generalizing fs with
    | nil => rfl
    | cons hs _ ih => rw [List.foldl_cons, List.foldl_cons, hs.2.fields, ih]
  methods := by
    refine h.distinctMethods.perm_of_find? h'.distinctMethods fun key => ?_
    rw [h.method, h'.method, findSome?_eq (hsupers.imp fun _ _ hs => (hs.2.finds hs.1).2.1 key)]
  constructors := by
    refine h.distinctConstructors.perm_of_find? h'.distinctConstructors fun arity => ?_
    rw [h.constructor, h'.constructor,
      findSome?_eq (hsupers.imp fun _ _ hs => (hs.2.finds hs.1).2.2 arity)]

/-- A class is not built if one of its superclasses is not known; the error names the first of them. -/
theorem build_eq_error {e : EvalError} : r.build known = .error e ↔
    ∃ before name after, r.superclasses = before ++ name :: after ∧
      (∀ n ∈ before, (known n).isSome = true) ∧ known name = none ∧ e = .of (.undefinedClass name) := by
  refine Iff.trans ?_ ClassDef.mapM_lookUp_eq_error
  unfold build superclasses
  rw [ClassDef.build_eq]
  cases r.decl.superclasses.mapM (ClassDef.lookUp known) with
  | error e' =>
    constructor
    · intro h
      cases h
      rfl
    · intro h
      cases h
      rfl
  | ok supers => exact iff_of_false nofun nofun

theorem exists_of_build_error {e : EvalError} (h : r.build known = .error e) :
    ∃ name ∈ r.superclasses, known name = none ∧ e = .of (.undefinedClass name) := by
  obtain ⟨before, name, after, hnames, -, hname, he⟩ := build_eq_error.mp h
  refine ⟨name, ?_, hname, he⟩
  rw [hnames]
  exact List.mem_append_right before List.mem_cons_self

/-- Whatever the order in which the tables of superclasses are gone through, a class is built or fails alike,
and differs only in the order of the entries of its own tables. -/
theorem build_reordered (hknown : Reorders known known')
    (hdistinct : ∀ name c, known name = some c → c.Distinct) :
    (∃ e, r.build known = .error e ∧ r.build known' = .error e) ∨
      ∃ c c', r.build known = .ok c ∧ r.build known' = .ok c' ∧ c.Reordered c' ∧ c.Distinct := by
  cases hbuild : r.build known with
  | error e =>
    left
    unfold build at hbuild ⊢
    rw [ClassDef.build_eq] at hbuild ⊢
    cases hsupers : r.decl.superclasses.mapM (ClassDef.lookUp known) with
    | error e' =>
      rw [hsupers] at hbuild
      cases hbuild
      rw [ClassDef.mapM_lookUp_congr hknown.isSome_eq hsupers]
      exact ⟨e, rfl, rfl⟩
    | ok supers =>
      rw [hsupers] at hbuild
      cases hbuild
  | ok c =>
    right
    obtain ⟨supers, hsupers, hmerges⟩ := merges_of_build hbuild
    obtain ⟨supers', hsupers', hreordered⟩ := hknown.exists_supers hdistinct hsupers
    have hbuild' := build_eq_ok.mpr ⟨supers', hsupers', rfl⟩
    obtain ⟨supers'', hsupers'', hmerges'⟩ := merges_of_build hbuild'
    have hunique : Relator.RightUnique fun name (s : ClassDef) => known' name = some s :=
      fun _ _ _ hs ht => Option.some.inj (hs.symm.trans ht)
    obtain rfl := List.right_unique_forall₂' hunique hsupers' hsupers''
    exact ⟨c, _, rfl, hbuild', hmerges.reordered hmerges' hreordered, hmerges.distinctMethods,
      hmerges.distinctConstructors⟩

end Registration
end TreeScript
