import TreeScript.Proofs.Arity.State
import TreeScript.Proofs.Hierarchy.Order
import TreeScript.Proofs.Logic.Alike
import TreeScript.Proofs.Sessions
import TreeScript.Proofs.Storage

/-
# The classes of a session

Classes come into a session by registration alone, be it that the program defines them or that the host adds
them, and a class that has been registered stays.  So over every history the classes of a session are
`Registered`, and the first one is the class of exceptions.

Objects are made by the constructors of classes.  Those that a session adds itself are of classes that it has
registered; what the host hands over is taken to be of registered classes, or of others that are *given*.
Evaluations make no object of any other class: this is a logic (`Grounds.hierarchy`), whose worlds are the
classes of the session that evaluates.
-/

namespace TreeScript

open Exec

/-! ## Registering -/

namespace Session

/-- Build a class over the classes of the session, with methods of the host, and add it. -/
def register (s : Session) (r : Registration) : Except EvalError Session := do
  s.addClass (← r.build s.classes.find?)

/-- Register a class; what fails changes nothing. -/
def withRegistration (s : Session) (r : Registration) : Session :=
  match s.register r with
  | .ok t => t
  | .error _ => s

/-- A class that the program defines is registered as it is declared. -/
theorem defineClass_eq_register (s : Session) (d : ClassDecl Node) :
    s.defineClass d = s.register ⟨d, []⟩ := by
  unfold defineClass register Registration.build
  cases ClassDef.build d s.classes.find? <;> rfl

theorem classes_addFunctions (fs : List Function) (s : Session) :
    (fs.foldl addFunction s).classes = s.classes :=
  List.foldlRecOn (motive := fun t : Session => t.classes = s.classes) fs _ rfl fun _ ht _ _ => ht

/-- What is found after functions have been added is one of them, or was there before. -/
theorem mem_of_addFunctions {fs : List Function} {s : Session} {slot : Nat} {f : Function}
    (h : (fs.foldl addFunction s).catalog.get? slot = some f) :
    f ∈ fs ∨ s.catalog.get? slot = some f := by
  induction fs generalizing s with
  | nil => exact .inr h
  | cons g fs ih =>
    rcases ih h with hf | hf
    · exact .inl (List.mem_cons_of_mem g hf)
    · rcases Catalog.eq_or_get?_of_add hf with rfl | hf
      · exact .inl List.mem_cons_self
      · exact .inr hf

/-- The functions by which a class is called make instances of it. -/
theorem mem_constructorsOf {c : ClassDef} {f : Function} (h : f ∈ constructorsOf c) :
    ∃ d, f = .constructor c d := by
  unfold constructorsOf at h
  split at h
  · exact ⟨none, List.mem_singleton.mp h⟩
  · obtain ⟨⟨n, d⟩, -, rfl⟩ := List.mem_map.mp h
    exact ⟨some d, rfl⟩

/-- What registering a class changes. -/
theorem exists_of_register {s t : Session} {r : Registration} (h : s.register r = .ok t) :
    ∃ c, r.build s.classes.find? = .ok c ∧ s.classes.contains c.name = false ∧
      t.classes = s.classes.insert c.name c ∧
      ∀ slot f, t.catalog.get? slot = some f →
        (∃ d, f = .constructor c d) ∨ s.catalog.get? slot = some f := by
  obtain ⟨c, hbuild, hadd⟩ := ClassDef.exists_of_bind h
  obtain ⟨hnew, rfl⟩ := addClass_eq_ok.mp hadd
  refine ⟨c, hbuild, hnew, classes_addFunctions _ _, fun slot f hf => ?_⟩
  exact (mem_of_addFunctions hf).imp_left mem_constructorsOf

end Session

/-! ## Sound sessions and heaps -/

/-- The class of exceptions. -/
def exceptionDef : ClassDef := (ClassDef.merge exceptionDecl []).withMethod getMessage

/-- The registration of the class of exceptions. -/
def exceptionRegistration : Registration := ⟨exceptionDecl, [getMessage]⟩

/-- A constructor makes instances of a class of a kind. -/
def Function.Makes (P : ClassDef → Prop) (f : Function) : Prop := ∀ c d, f = .constructor c d → P c

/-- The classes of a session are registered, beginning with that of exceptions, and its constructors make
instances of known classes. -/
structure Session.Classed (known : ClassDef → Prop) (s : Session) : Prop where
  registered : ∃ book, Registered book s.classes
  exception : s.classes.find? exceptionClass = some exceptionDef
  makes : ∀ {slot f}, s.catalog.get? slot = some f → f.Makes known

/-- The objects of a heap are of known classes, and so are those that its callables make. -/
structure Heap.Classed (known : ClassDef → Prop) (h : Heap) : Prop where
  classOf : ∀ i, known (h.classOf i)
  makes : ∀ {i f}, h.callable i = .function f → f.Makes known

section
variable {known known' : ClassDef → Prop} {f : Function} {s t : Session} {h : Heap}

theorem Function.Makes.mono (hknown : ∀ c, known c → known' c) (hf : f.Makes known) : f.Makes known' :=
  fun c d heq => hknown c (hf c d heq)

theorem Function.makes_routine (r : Routine) : (Function.routine r).Makes known := by
  intro _ _ h
  cases h

theorem Session.Classed.mono (hknown : ∀ c, known c → known' c) (hs : s.Classed known) :
    s.Classed known' :=
  ⟨hs.registered, hs.exception, fun hf => (hs.makes hf).mono hknown⟩

theorem Heap.Classed.mono (hknown : ∀ c, known c → known' c) (hh : h.Classed known) :
    h.Classed known' :=
  ⟨fun i => hknown _ (hh.classOf i), fun hf => (hh.makes hf).mono hknown⟩

/-- Only the classes and the catalog matter. -/
theorem Session.Classed.congr (hs : s.Classed known) (hclasses : t.classes = s.classes)
    (hcatalog : t.catalog = s.catalog) : t.Classed known := by
  refine ⟨?_, ?_, fun hf => ?_⟩
  · rw [hclasses]
    exact hs.registered
  · rw [hclasses]
    exact hs.exception
  · rw [hcatalog] at hf
    exact hs.makes hf

theorem Session.Classed.addFunction (hs : s.Classed known) (hf : f.Makes known) :
    (s.addFunction f).Classed known := by
  refine ⟨hs.registered, hs.exception, fun {slot g} hg => ?_⟩
  have hadded : g ∈ [f] ∨ s.catalog.get? slot = some g := mem_of_addFunctions hg
  rcases hadded with hmem | hg
  · exact List.mem_singleton.mp hmem ▸ hf
  · exact hs.makes hg

theorem Heap.Classed.newObject (hh : h.Classed known) {c : ClassDef} (hc : known c) (around : Nat) :
    (h.newObject c around).2.Classed known where
  classOf := forall_push (P := fun o : Instance => known o.cls) hh.classOf hc
  makes := hh.makes

theorem Heap.Classed.newCallable (hh : h.Classed known) {k : Callable}
    (hk : ∀ f, k = .function f → f.Makes known) : (h.newCallable k).2.Classed known where
  classOf := hh.classOf
  makes := forall_push (P := fun k : Callable => ∀ f, k = .function f → f.Makes known)
    (fun _ _ hf => hh.makes hf) hk _ _

end

/-! ## New sessions -/

theorem exceptionRegistration_build (known : String → Option ClassDef) :
    exceptionRegistration.build known = .ok exceptionDef := rfl

/-- A session starts with the class of exceptions. -/
theorem Session.classed_new {known : ClassDef → Prop} (hknown : known exceptionDef) (id root : Nat)
    (settings : Settings) : (Session.new id root settings).Classed known := by
  let first : Session := { blank id root settings with
    classes := Table.empty.insert exceptionDef.name exceptionDef }
  have hfirst : (blank id root settings).addExceptionClass =
      (constructorsOf exceptionDef).foldl addFunction first := rfl
  have hregistered : Registered [exceptionRegistration] first.classes :=
    .register .none (exceptionRegistration_build _) rfl
  have hexception : (blank id root settings).addExceptionClass.Classed known := by
    rw [hfirst]
    have hclasses := classes_addFunctions (constructorsOf exceptionDef) first
    refine ⟨⟨_, hclasses.symm ▸ hregistered⟩, ?_, fun {slot f} hf => ?_⟩
    · rw [hclasses]
      rfl
    · rcases mem_of_addFunctions hf with hmem | hblank
      · obtain ⟨d, rfl⟩ := mem_constructorsOf hmem
        intro c d' h
        cases h
        exact hknown
      · cases hblank
  unfold Session.new
  dsimp only
  split
  -- the core library makes no instances of classes of the program
  · unfold addCoreLibrary
    generalize CoreFunction.all = cores
    generalize (blank id root settings).addExceptionClass = s at hexception
    induction cores generalizing s with
    | nil => exact hexception
    | cons c cores ih => exact ih _ (hexception.addFunction fun _ _ h => by cases h)
  · exact hexception

/-! ## Evaluations -/

/-- A class that is registered, or known otherwise. -/
def Registered.Knows (others : ClassDef → Prop) (classes : Table String ClassDef) (c : ClassDef) : Prop :=
  Registered.Holds classes c ∨ others c

/-- A state in which the session has some classes, and everything is of known classes. -/
structure State.Classed (others : ClassDef → Prop) (classes : Table String ClassDef) (s : State) :
    Prop where
  classes_eq : s.session.classes = classes
  session : s.session.Classed (Registered.Knows others classes)
  heap : s.heap.Classed (Registered.Knows others classes)

/-- What is taken for granted of objects and of what makes them: they are of classes that the session has
registered, or that are known otherwise. -/
def Grounds.hierarchy (others : ClassDef → Prop) : Grounds where
  World := Table String ClassDef
  le classes classes' := ∀ c, Registered.Holds classes c → Registered.Holds classes' c
  good := State.Classed others
  code _ _ := True
  cls := Registered.Knows others
  routine _ _ _ := True
  function classes f _ := f.Makes (Registered.Knows others classes)
  enters _ _ := True

section
variable {others : ClassDef → Prop} {classes classes' : Table String ClassDef} {s t : State}

theorem Registered.Knows.mono {c : ClassDef} (h : ∀ c, Holds classes c → Holds classes' c)
    (hc : Knows others classes c) : Knows others classes' c :=
  hc.imp_left (h c)

namespace State.Classed

/-- Only the objects, the callables, the catalog and the classes matter. -/
theorem congr (hs : s.Classed others classes) (hobjects : t.heap.objects = s.heap.objects)
    (hcallables : t.heap.callables = s.heap.callables) (hcatalog : t.session.catalog = s.session.catalog)
    (hclasses : t.session.classes = s.session.classes) : t.Classed others classes := by
  refine ⟨hclasses.trans hs.classes_eq, hs.session.congr hclasses hcatalog, fun i => ?_,
    fun {i f} hf => ?_⟩
  · have hi := hs.heap.classOf i
    rwa [Heap.classOf, Heap.object, ← hobjects] at hi
  · rw [Heap.callable, hcallables] at hf
    exact hs.heap.makes hf

theorem withHeap (hs : s.Classed others classes) {h : Heap}
    (hh : h.Classed (Registered.Knows others classes)) : (s.withHeap h).Classed others classes :=
  ⟨hs.classes_eq, hs.session, hh⟩

/-- A class that is registered is known from then on, and what was known stays known. -/
theorem register (hs : s.Classed others classes) {r : Registration} {session : Session}
    (h : s.session.register r = .ok session) :
    (∀ c, Registered.Holds classes c → Registered.Holds session.classes c) ∧
      (s.withSession session).Classed others session.classes := by
  obtain ⟨c, hbuild, hnew, hclasses, hcatalog⟩ := Session.exists_of_register h
  obtain ⟨book, hbook⟩ := hs.session.registered
  have hstays : ∀ c', Registered.Holds classes c' → Registered.Holds session.classes c' := by
    intro c' hc'
    unfold Registered.Holds
    rw [hclasses]
    exact Registered.find?_register hnew (hs.classes_eq ▸ hc')
  have hknown : ∀ c', Registered.Knows others classes c' → Registered.Knows others session.classes c' :=
    fun c' hc' => hc'.mono hstays
  refine ⟨hstays, rfl, ⟨⟨r :: book, hclasses ▸ hbook.register hbuild hnew⟩, ?_, fun {slot f} hf => ?_⟩,
    hs.heap.mono hknown⟩
  · show session.classes.find? exceptionClass = some exceptionDef
    rw [hclasses]
    exact Registered.find?_register hnew hs.session.exception
  · rcases hcatalog slot f hf with ⟨d, rfl⟩ | hf
    · intro c' d' heq
      cases heq
      refine .inl ?_
      unfold Registered.Holds
      rw [hclasses, Table.find?_insert, if_pos rfl]
    · exact (hs.session.makes hf).mono hknown

end State.Classed

namespace Grounds

theorem firm_hierarchy (others : ClassDef → Prop) : (hierarchy others).Firm where
  le_refl _ _ h := h
  le_trans h₁ h₂ c hc := h₂ c (h₁ c hc)
  congr hcore hs := hs.congr (congrArg Core.objects hcore) (congrArg Core.callables hcore)
    (congrArg Core.catalog hcore) (congrArg Core.classes hcore)

variable {ev ev' : Evaluator}

/-- A step in the session that leaves its catalog and its classes as they are. -/
theorem hierarchy_modifySession {f : Session → Session}
    (h : ∀ s, ((f s).catalog, (f s).classes) = (s.catalog, s.classes)) :
    ((hierarchy others).alike ev ev').Keeps (modifySession f) := by
  refine fun _ => alike_keeps (firm_hierarchy others) (fun _ => rfl) fun s hs => ?_
  obtain ⟨hcatalog, hclasses⟩ := Prod.mk.inj (h s.session)
  exact hs.congr rfl rfl hcatalog hclasses

theorem hierarchy_enterNode : ((hierarchy others).alike ev ev').Keeps enterNode := by
  refine fun _ => alike_keeps (firm_hierarchy others)
    (fun s => by rw [enterNode_apply, enterNode_apply]) fun s hs => ?_
  rw [enterNode_apply]
  split
  · exact hs
  · split <;> exact hs.congr rfl rfl rfl rfl

theorem hierarchy_defineClass (w : Table String ClassDef) (d : ClassDecl Node) :
    ((hierarchy others).alike ev ev').KeepsAt w (do
      let s ← ofExcept (← session fun s => s.defineClass d)
      modifySession fun _ => s) := by
  refine alike_step (fun s => ?_) fun s hs => ?_ <;> simp only [bind_apply, session]
  · cases s.session.defineClass d <;> rfl
  · rw [Session.defineClass_eq_register]
    cases hregister : s.session.register ⟨d, []⟩ with
    | error e => exact ⟨w, fun _ h => h, hs, fun _ _ => trivial⟩
    | ok t =>
      obtain ⟨hstays, ht⟩ := State.Classed.register hs hregister
      exact ⟨t.classes, hstays, ht, fun _ _ => trivial⟩

theorem hierarchy_resolveCall (w : Table String ClassDef) (site : Nat) (name : String) (argc : Nat) :
    ((hierarchy others).alike ev ev').holds w (resolveCall site name argc) fun w' p =>
      p.2.Makes (Registered.Knows others w') := by
  refine alike_step (fun s => by rw [resolveCall_apply, resolveCall_apply]) fun s hs => ?_
  refine ⟨w, fun _ h => h, ?_⟩
  rw [resolveCall_apply]
  cases hremembered : remembered site s with
  | some callee =>
    refine ⟨hs, fun _ h => ?_⟩
    cases h
    obtain ⟨slot, -, hmap⟩ := Option.bind_eq_some_iff.mp hremembered
    obtain ⟨f, hf, rfl⟩ := Option.map_eq_some_iff.mp hmap
    exact hs.session.makes hf
  | none =>
    dsimp only
    cases hcallee : s.session.catalog.callee? name argc with
    | none => exact ⟨hs, fun _ h => by cases h⟩
    | some callee =>
      refine ⟨hs.congr rfl rfl rfl rfl, fun _ h => ?_⟩
      cases h
      exact hs.session.makes (Catalog.get?_of_callee? hcallee)

theorem hierarchy_entering
    (hsilent : ∀ ps args s, ev.trace ps args s = (.value (), s) ∧ ev'.trace ps args s = (.value (), s))
    {ps : List Param} {args : List Value} : ((hierarchy others).alike ev ev').Keeps (entering ps args) := by
  refine fun _ => alike_keeps (firm_hierarchy others)
    (fun s => (hsilent ps args s).1.trans (hsilent ps args s).2.symm) fun s hs => ?_
  show State.Classed others _ (ev.trace ps args s).2
  rw [(hsilent ps args s).1]
  exact hs

/-- Making a coroutine makes no object and no callable. -/
theorem hierarchy_newCoroutine (w : Table String ClassDef) {f : Heap → Nat × Heap}
    (hf : ∀ h, ∃ name ps body args origin, f h = h.newCoroutine name ps body args origin) :
    ((hierarchy others).alike ev ev').KeepsAt w
      (make fun h => (Value.coroutine (f h).1, (f h).2)) := by
  refine alike_keeps (firm_hierarchy others) (fun _ => rfl) fun s hs => ?_
  obtain ⟨name, ps, body, args, origin, heq⟩ := hf s.heap
  show State.Classed others w (s.withHeap (f s.heap).2)
  rw [heq]
  have hkept := (s.heap.newScope origin).2.declareAll_eq (p := fun h => (h.objects, h.callables))
    (fun _ _ _ => rfl) s.heap.scopes.size ps args
  obtain ⟨hobjects, hcallables⟩ := Prod.mk.inj hkept
  exact hs.congr hobjects hcallables rfl rfl

theorem stateLaws_hierarchy : ((hierarchy others).alike ev ev').StateLaws where
  classOf hs i := hs.heap.classOf i
  callable {_ s} hs i := by
    cases hcallable : s.heap.callable i with
    | function f => exact fun _ _ => hs.heap.makes hcallable
    | lambda _ _ _ | deferred _ _ => trivial
  coroutine _ _ := ⟨trivial, trivial⟩
  findClass {_ s _ c} hs hc := by
    obtain ⟨book, hbook⟩ := hs.session.registered
    refine .inl ?_
    show Table.find? _ c.name = some c
    rw [← hs.classes_eq, hbook.name_eq hc, hc]
  callee hs hf := hs.session.makes (Catalog.get?_of_callee? hf)

theorem worldLaws_hierarchy : ((hierarchy others).alike ev ev').WorldLaws where
  le_refl _ _ h := h
  le_trans h₁ h₂ c hc := h₂ c (h₁ c hc)
  code_mono _ _ := trivial
  cls_mono h hc := hc.mono h
  routine_mono _ _ := trivial
  function_mono h hf := hf.mono fun _ hc => hc.mono h

theorem lawful_hierarchy (hfuel : ev.fuel = ev'.fuel)
    (hsilent : ∀ ps args s, ev.trace ps args s = (.value (), s) ∧ ev'.trace ps args s = (.value (), s)) :
    ((hierarchy others).alike ev ev').Lawful where
  toWorldLaws := worldLaws_hierarchy
  toStateLaws := stateLaws_hierarchy
  toRules := rules_alike (firm_hierarchy others)
  part _ _ := trivial
  lambda _ := trivial
  default _ _ _ := trivial
  method _ _ := trivial
  constructor _ _ := ⟨trivial, trivial⟩
  body _ _ := trivial
  routine _ := trivial
  constructed hf := ⟨hf _ _ rfl, fun _ _ => ⟨trivial, trivial⟩⟩
  entersRoutine _ _ := trivial
  entersLambda _ := trivial
  fuel _ := alike_keeps (firm_hierarchy others)
    (fun s => congrArg (fun n => (Outcome.value n, s)) hfuel) fun _ hs => hs
  enterNode := hierarchy_enterNode
  entering _ := hierarchy_entering hsilent
  mark := hierarchy_modifySession fun _ => rfl
  newObject around hc := alike_keeps (firm_hierarchy others) (fun _ => rfl) fun _ hs =>
    hs.withHeap (hs.heap.newObject hc around)
  newCoroutine _ _ _ := hierarchy_newCoroutine _ fun _ => ⟨_, _, _, _, _, rfl⟩
  restart _ w := hierarchy_newCoroutine w fun _ => ⟨_, _, _, _, _, rfl⟩
  resumed := (coreRules_alike (firm_hierarchy others)).resumed worldLaws_hierarchy stateLaws_hierarchy
    (rules_alike (firm_hierarchy others)) fun _ => hierarchy_entering hsilent
  newCallable hcode _ := alike_keeps (firm_hierarchy others) (fun _ => rfl) fun _ hs =>
    hs.withHeap (hs.heap.newCallable fun f hf => absurd hf (hcode f))
  addFunction _ := alike_keeps (firm_hierarchy others) (fun _ => rfl) fun _ hs =>
    ⟨hs.classes_eq, hs.session.addFunction (Function.makes_routine _), hs.heap⟩
  defineClass _ := hierarchy_defineClass _ _
  reserve _ _ := alike_step (fun _ => rfl) fun _ hs =>
    ⟨_, fun _ h => h, hs.congr rfl rfl rfl rfl, fun _ _ => trivial⟩
  resolveCall _ := hierarchy_resolveCall _ _ _ _
  throwing := alike_throwing (firm_hierarchy others)
  classForFailure := alike_classForFailure (firm_hierarchy others) stateLaws_hierarchy

end Grounds
end
end TreeScript
