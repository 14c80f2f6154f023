import TreeScript.Proofs.Logic.Core
import TreeScript.Proofs.Logic.Nodes
import TreeScript.Proofs.Sessions
import TreeScript.Proofs.Simulation.Node
import TreeScript.Proofs.Storage

/-
# What evaluations throw

What is thrown is an instance of the class of exceptions or of a class under it, for evaluations throw in one
place only, where this is looked at, and the class of an object stays.

Native code of the host may raise jumps.  A function is *tame* if it is not such native code; all functions of the
program and of the core library are.  A state is tame if the functions that can be called in it are, which an
evaluation leaves so: it adds functions of the program only.  That evaluations throw exceptions and end in tame
states is a lawful logic (`Logic.throws`).
-/

namespace TreeScript

open Exec

/-! ## Tame functions -/

/-- Whether a native action raises no jump. -/
def NativeAction.isTame : NativeAction → Bool
  | evaluate _ | raiseBreak | raiseReturn | raiseContinue => false
  | _ => true

/-- Whether a function is no native code that may raise a jump. -/
def Function.isTame : Function → Bool
  | routine ⟨_, _, _, .native action⟩ => action.isTame
  | _ => true

/-- Only native code of the host is not tame. -/
theorem Function.isTame_of_isNative {f : Function} (h : f.isNative = false) : f.isTame = true := by
  rcases f with ⟨name, parameters, returns, action | body | body⟩ | c | _
  · cases h
  all_goals rfl

theorem Function.isTame_ofDecl (d : FunctionDecl Node) : (Function.routine (.ofDecl d)).isTame = true := by
  unfold Routine.ofDecl
  cases d.isCoroutine <;> rfl

/-- The functions of a catalog are tame. -/
def Catalog.Tame (c : Catalog) : Prop := ∀ (slot : Nat) (f : Function), c.get? slot = some f → f.isTame = true

/-- The functions that are callables of a heap are tame. -/
def Heap.Tame (h : Heap) : Prop := ∀ (i : Nat) (f : Function), h.callable i = .function f → f.isTame = true

/-- The functions that can be called in a state are tame. -/
structure State.Tame (s : State) : Prop where
  catalog : s.session.catalog.Tame
  heap : s.heap.Tame

namespace Catalog

variable {c : Catalog}

theorem tame_empty : Catalog.empty.Tame := by
  intro slot f h
  cases h

theorem Tame.add (hc : c.Tame) {f : Function} (hf : f.isTame = true) : (c.add f).2.Tame := by
  intro slot g hg
  rcases eq_or_get?_of_add hg with rfl | hg
  · exact hf
  · exact hc slot g hg

theorem Tame.remove (hc : c.Tame) (name : String) (arity : Arity) : (c.remove name arity).2.Tame :=
  fun slot f hf => hc slot f ((get?_remove c name arity slot).symm.trans hf)

end Catalog

namespace Session

variable {s t : Session}

theorem tame_foldl {γ : Type} {g : γ → Function} (hg : ∀ a, (g a).isTame = true) (items : List γ)
    (hs : s.catalog.Tame) : (items.foldl (fun s a => s.addFunction (g a)) s).catalog.Tame :=
  List.foldlRecOn (motive := fun s : Session => s.catalog.Tame) items _ hs fun _ hs a _ => hs.add (hg a)

theorem tame_addClass (hs : s.catalog.Tame) {cls : ClassDef} (h : s.addClass cls = .ok t) : t.catalog.Tame := by
  obtain ⟨-, rfl⟩ := addClass_eq_ok.mp h
  exact List.foldlRecOn (motive := fun s : Session => s.catalog.Tame) _ _ hs fun _ hs _ hf =>
    hs.add (Function.isTame_of_isNative (Simulation.isNative_of_mem_constructorsOf hf))

theorem tame_defineClass (hs : s.catalog.Tame) {d : ClassDecl Node} (h : s.defineClass d = .ok t) :
    t.catalog.Tame := by
  obtain ⟨cls, -, hadded⟩ := exists_of_defineClass h
  exact tame_addClass hs hadded

/-- A new session has the class of exceptions and at most the core library. -/
theorem tame_new (id root : Nat) (settings : Settings) : (Session.new id root settings).catalog.Tame := by
  have hexception : (blank id root settings).addExceptionClass.catalog.Tame := by
    unfold addExceptionClass
    split
    · split
      · rename_i hadd
        exact tame_addClass Catalog.tame_empty hadd
      · exact Catalog.tame_empty
    · exact Catalog.tame_empty
  unfold Session.new
  dsimp only
  split
  · exact tame_foldl (fun _ => rfl) CoreFunction.all hexception
  · exact hexception

end Session

/-- Making a coroutine leaves the callables as they are. -/
theorem Heap.callables_newCoroutine (h : Heap) (name : String) (params : List Param) (body : Node)
    (args : List Value) (origin : Nat) :
    (h.newCoroutine name params body args origin).2.callables = h.callables :=
  (h.newScope origin).2.declareAll_eq (p := Heap.callables) (fun _ _ _ => rfl) (h.newScope origin).1 params args

namespace State.Tame

variable {s t : State}

/-- Only the catalog and the callables count. -/
theorem congr (h : s.Tame) (hcatalog : t.session.catalog = s.session.catalog)
    (hcallables : t.heap.callables = s.heap.callables) : t.Tame where
  catalog slot f hf := h.catalog slot f (by rw [← hcatalog]; exact hf)
  heap i f hf := h.heap i f (by rw [← hf, Heap.callable, Heap.callable, hcallables])

theorem of_core (h : s.Tame) (hcore : t.core = s.core) : t.Tame :=
  h.congr (congrArg Core.catalog hcore) (congrArg Core.callables hcore)

theorem newCallable (h : s.Tame) {k : Callable} (hk : ∀ f, k ≠ .function f) :
    (s.withHeap (s.heap.newCallable k).2).Tame where
  catalog := h.catalog
  heap := forall_push (P := fun k : Callable => ∀ f, k = .function f → f.isTame = true) h.heap
    fun f hf => absurd hf (hk f)

theorem addFunction (h : s.Tame) {f : Function} (hf : f.isTame = true) :
    (s.withSession (s.session.addFunction f)).Tame :=
  ⟨h.catalog.add hf, h.heap⟩

/-- A function that is called at a call site is in the catalog. -/
theorem resolved (h : s.Tame) {site : Nat} {name : String} {argc slot : Nat} {f : Function} {ev : Evaluator}
    (hf : (resolveCall site name argc ev s).1 = .value (slot, f)) : f.isTame = true := by
  rw [resolveCall_apply] at hf
  cases hremembered : remembered site s with
  | some callee =>
    rw [hremembered] at hf
    cases hf
    obtain ⟨slot', -, hget⟩ := Option.bind_eq_some_iff.mp hremembered
    obtain ⟨f', hf', hpair⟩ := Option.map_eq_some_iff.mp hget
    cases hpair
    exact h.catalog _ _ hf'
  | none =>
    rw [hremembered] at hf
    cases hcallee : s.session.catalog.callee? name argc with
    | some callee =>
      rw [hcallee] at hf
      cases hf
      exact h.catalog _ _ (Catalog.get?_of_callee? hcallee)
    | none =>
      rw [hcallee] at hf
      cases hf

end State.Tame

/-! ## Exceptions -/

/-- What an outcome throws is an exception of a heap. -/
def Outcome.ThrowsException {α : Type} (h : Heap) : Outcome α → Prop
  | .signal (.throwValue v) => h.isInstance exceptionClass v = true
  | _ => True

namespace Outcome

variable {α β : Type} {h h' : Heap}

theorem throwsException_iff {o : Outcome α} :
    o.ThrowsException h ↔ ∀ v, o = .signal (.throwValue v) → h.isInstance exceptionClass v = true := by
  refine ⟨fun ho v hv => ?_, fun ho => ?_⟩
  · subst hv
    exact ho
  · rcases o with _ | (_ | _ | _ | _ | v | _) | _ <;> first | exact ho v rfl | trivial

/-- The class of an object stays. -/
theorem ThrowsException.congr {o : Outcome α} (ho : o.ThrowsException h) (hobjects : h'.objects = h.objects) :
    o.ThrowsException h' := by
  have hclass : ∀ v, h'.isInstance exceptionClass v = h.isInstance exceptionClass v := by
    intro v
    cases v <;> simp only [Heap.isInstance, Heap.classOf, Heap.object, hobjects]
  rw [throwsException_iff] at ho ⊢
  exact fun v hv => (hclass v).trans (ho v hv)

/-- What hands exceptions on throws them. -/
theorem ThrowsException.of_thrown {o : Outcome α} {o' : Outcome β} (ho : o.ThrowsException h)
    (hthrown : ∀ v, o' = .signal (.throwValue v) → o = .signal (.throwValue v)) : o'.ThrowsException h :=
  throwsException_iff.mpr fun v hv => throwsException_iff.mp ho v (hthrown v hv)

end Outcome

/-! ## The logic -/

/-- An evaluation has ended in a tame state, has thrown an exception if it has thrown anything, and has given a
value of a kind if it has given one. -/
structure EndsTame {α : Type} (Q : α → Prop) (r : Outcome α × State) : Prop where
  tame : r.2.Tame
  thrown : r.1.ThrowsException r.2.heap
  value : ∀ a, r.1 = .value a → Q a

/-- From every tame state an evaluation ends in a tame state, and throws exceptions only. -/
def Logic.throws (n : Nat) : Logic where
  World := Unit
  le _ _ := True
  good _ := State.Tame
  holds w x Q := ∀ s : State, s.Tame → EndsTame (Q w) (x.run n s)
  code _ _ := True
  cls _ _ := True
  routine _ _ _ := True
  function _ f _ := f.isTame = true
  enters _ _ := True

namespace Logic

section
variable {n : Nat} {α β : Type} {x : Exec α} {Q : Unit → α → Prop} {w : Unit}

/-- A step that leaves the core as it is and throws nothing. -/
theorem throws_step (hcore : ∀ s : State, s.Tame → (x.run n s).2.core = s.core)
    (hthrown : ∀ s v, (x.run n s).1 ≠ .signal (.throwValue v))
    (hQ : ∀ s : State, s.Tame → ∀ a, (x.run n s).1 = .value a → Q w a) : (throws n).holds w x Q :=
  fun s hs => ⟨hs.of_core (hcore s hs), Outcome.throwsException_iff.mpr fun v hv => absurd hv (hthrown s v), hQ s hs⟩

/-- A step that gives a value in a tame state. -/
theorem throws_value {x : Exec α} (h : ∀ s : State, s.Tame → (∃ a, (x.run n s).1 = .value a) ∧ (x.run n s).2.Tame) :
    (throws n).Keeps x := by
  intro _ s hs
  obtain ⟨⟨a, ha⟩, htame⟩ := h s hs
  exact ⟨htame, by rw [ha]; trivial, fun _ _ => trivial⟩

theorem throws_bind {f : α → Exec β} {Q' : Unit → β → Prop} (hx : (throws n).holds w x Q)
    (hf : ∀ w', (throws n).le w w' → ∀ a, Q w' a → (throws n).holds w' (f a) Q') :
    (throws n).holds w (x >>= f) Q' := by
  intro s hs
  obtain ⟨htame, hthrown, hvalue⟩ := hx s hs
  rw [Exec.run, bind_apply, show x (evaluator n) s = x.run n s from rfl]
  generalize x.run n s = r at htame hthrown hvalue
  obtain ⟨a | g | k, t⟩ := r
  · exact hf w trivial a (hvalue a rfl) t htame
  · exact ⟨htame, hthrown.of_thrown fun v hv => by cases hv; rfl, fun _ h => by cases h⟩
  · exact ⟨htame, trivial, fun _ h => by cases h⟩

theorem throws_asCall {x : Exec Value} (hx : (throws n).KeepsAt w x) (name : String) :
    (throws n).KeepsAt w (asCall name x) := by
  intro s hs
  rw [Exec.run, asCall_apply]
  cases s.session.calls.push name with
  | error e => exact ⟨hs, trivial, fun _ _ => trivial⟩
  | ok calls =>
    obtain ⟨htame, hthrown, -⟩ := hx (s.withCalls calls) (hs.congr rfl rfl)
    refine ⟨htame.congr rfl rfl, hthrown.of_thrown fun v hv => ?_, fun _ _ => trivial⟩
    change onErrors _ _ = _ at hv
    show (x (evaluator n) (s.withCalls calls)).1 = _
    generalize (x (evaluator n) (s.withCalls calls)).1 = o at hv
    rcases o with _ | (_ | _ | _ | _ | _ | _) | _ <;> cases hv
    rfl

theorem throws_handle {take : Signal → Option (Exec α)} (hx : (throws n).KeepsAt w x)
    (htake : ∀ g y, take g = some y → (throws n).KeepsAt w y) : (throws n).KeepsAt w (handle x take) := by
  intro s hs
  obtain ⟨htame, hthrown, -⟩ := hx s hs
  rw [Exec.run, handle, show x (evaluator n) s = x.run n s from rfl]
  generalize x.run n s = r at htame hthrown
  obtain ⟨a | g | k, t⟩ := r
  · exact ⟨htame, trivial, fun _ _ => trivial⟩
  · dsimp only
    cases hg : take g with
    | none => exact ⟨htame, hthrown, fun _ _ => trivial⟩
    | some y => exact htake g y hg t htame
  · exact ⟨htame, trivial, fun _ _ => trivial⟩

end

theorem coreRules_throws (n : Nat) : (throws n).CoreRules where
  step _ _ h _ hfresh :=
    throws_step (fun s hs => (h s hs).1) (fun s => (hfresh s).not_thrown) fun s hs => (h s hs).2
  framed {_ _ _ before _ x} hx hpassing s hs := by
    obtain ⟨htame, hthrown, -⟩ := hx (before s) (hs.of_core (hpassing.core_before s))
    have hcore := hpassing.core_after s (x.run n (before s))
    refine ⟨htame.of_core hcore, ?_, fun _ _ => trivial⟩
    exact (hthrown.congr (congrArg Core.objects hcore)).of_thrown fun v => hpassing.thrown s _ v

theorem rules_throws (n : Nat) : (throws n).Rules where
  weaken h hQ s hs :=
    let ⟨htame, hthrown, hvalue⟩ := h s hs
    ⟨htame, hthrown, fun a ha => hQ _ a (hvalue a ha)⟩
  step _ _ h hfresh := throws_step (fun s hs => State.core_of_kernel (h s hs).1)
    (fun s => (hfresh s).not_thrown) fun s hs => (h s hs).2
  bind := throws_bind
  framed hx htransparent := (coreRules_throws n).framed hx htransparent.toPassing
  asCall hx name := throws_asCall hx name
  handle hx _ htake := throws_handle hx (htake _ trivial)

theorem lenient_throws (n : Nat) : (throws n).Lenient where
  le _ _ := trivial
  code _ _ := trivial
  cls _ _ := trivial
  routine _ _ _ := trivial
  enters _ _ := trivial

theorem worldLaws_throws (n : Nat) : (throws n).WorldLaws :=
  (lenient_throws n).worldLaws fun _ _ _ _ => id

theorem stateLaws_throws (n : Nat) : (throws n).StateLaws :=
  (lenient_throws n).stateLaws (fun _ _ hs i f hf _ => hs.heap i f hf) fun _ _ hs slot f hf _ =>
    hs.catalog slot f hf

section
variable {n : Nat}

theorem throws_entering (params : List Param) (args : List Value) : (throws n).Keeps (entering params args) :=
  throws_value fun _ hs => ⟨⟨_, rfl⟩, hs⟩

theorem throws_newCoroutine (name : String) (params : List Param) (body : Node) (args : List Value)
    (origin : Nat) : (throws n).Keeps (newCoroutine name params body args origin) :=
  throws_value fun _ hs => ⟨⟨_, rfl⟩, hs.congr rfl (Heap.callables_newCoroutine ..)⟩

/-- Evaluations make callables of code, and none of functions. -/
theorem throws_newCallable {k : Callable} (hk : ∀ f, k ≠ .function f) : (throws n).Keeps (newCallable k) :=
  throws_value fun _ hs => ⟨⟨_, rfl⟩, hs.newCallable hk⟩

theorem throws_addFunction {f : Function} (hf : f.isTame = true) :
    (throws n).Keeps (modifySession fun s => s.addFunction f) :=
  throws_value fun _ hs => ⟨⟨_, rfl⟩, hs.addFunction hf⟩

theorem throws_enterNode : (throws n).Keeps enterNode := by
  intro _ s hs
  rw [Exec.run, enterNode_apply]
  split
  · exact ⟨hs, trivial, fun _ _ => trivial⟩
  · split <;> exact ⟨hs.congr rfl rfl, trivial, fun _ _ => trivial⟩

theorem throws_defineClass (d : ClassDecl Node) : (throws n).Keeps (do
    let s ← ofExcept (← session fun s => s.defineClass d)
    modifySession fun _ => s) := by
  intro _ s hs
  simp only [Exec.run, bind_apply, session]
  cases hdefined : s.session.defineClass d with
  | error e => exact ⟨hs, trivial, fun _ _ => trivial⟩
  | ok t => exact ⟨⟨Session.tame_defineClass hs.catalog hdefined, hs.heap⟩, trivial, fun _ _ => trivial⟩

theorem throws_resolveCall (site : Nat) (name : String) (argc : Nat) (w : Unit) :
    (throws n).holds w (resolveCall site name argc) fun _ p => p.2.isTame = true := by
  intro s hs
  refine ⟨?_, ?_, fun callee h => hs.resolved h⟩ <;> rw [Exec.run, resolveCall_apply]
  · cases remembered site s with
    | some callee => exact hs
    | none => cases s.session.catalog.callee? name argc <;> exact hs.congr rfl rfl
  · cases remembered site s with
    | some callee => trivial
    | none => cases s.session.catalog.callee? name argc <;> trivial

/-- Only exceptions are thrown. -/
theorem throws_throwing (v : Value) : (throws n).Keeps (throwing v) := by
  intro _ s hs
  rw [Exec.run, throwing_apply]
  refine ⟨hs, ?_, fun _ _ => trivial⟩
  dsimp only
  split
  · rename_i h
    exact h
  · trivial

theorem throws_classForFailure (e : EvalError) (w : Unit) :
    (throws n).holds w (classForFailure e) fun _ _ => True := by
  intro s hs
  rw [Exec.run, classForFailure_apply]
  refine ⟨hs, ?_, fun _ _ => trivial⟩
  cases s.session.classes.find? exceptionClass <;> trivial

end

theorem lawful_throws (n : Nat) : (throws n).Lawful where
  toWorldLaws := worldLaws_throws n
  toCodeLaws := (lenient_throws n).codeLaws
  toStateLaws := stateLaws_throws n
  toRules := rules_throws n
  fuel := throws_value fun _ hs => ⟨⟨_, rfl⟩, hs⟩
  enterNode := throws_enterNode
  entering _ := throws_entering _ _
  mark := throws_value fun _ hs => ⟨⟨_, rfl⟩, hs.congr rfl rfl⟩
  newObject _ _ := throws_value (fun _ hs => ⟨⟨_, rfl⟩, hs.congr rfl rfl⟩) _
  newCoroutine _ _ _ := throws_newCoroutine _ _ _ _ _ _
  restart _ := throws_value fun _ hs => ⟨⟨_, rfl⟩, hs.congr rfl (Heap.callables_newCoroutine ..)⟩
  resumed := (coreRules_throws n).resumed (worldLaws_throws n) (stateLaws_throws n) (rules_throws n)
    fun _ => throws_entering _ _
  newCallable hk _ := throws_newCallable hk _
  addFunction {_ d} _ := throws_addFunction (Function.isTame_ofDecl d) _
  defineClass _ := throws_defineClass _ _
  reserve _ _ := throws_value (fun _ hs => ⟨⟨_, rfl⟩, hs.congr rfl rfl⟩) _
  resolveCall _ := throws_resolveCall _ _ _ _
  throwing := throws_throwing
  classForFailure := throws_classForFailure

/-- Every node ends in a tame state and throws exceptions only, from every tame state and with every bound. -/
theorem ready_throws (n : Nat) : (throws n).Ready where
  toLawful := lawful_throws n
  eval := by
    -- with a bound of `n + 1` the nodes inside a node are evaluated with a bound of `n`
    induction n with
    | zero => exact fun _ c s hs => ⟨hs, trivial, fun _ _ => trivial⟩
    | succ n ih =>
      intro _ e _ c s hs
      have K : (throws n).Ready := ⟨lawful_throws n, ih⟩
      have hnode : (throws n).Keeps (evalNode e c) := fun _ =>
        K.next K.enterNode fun _ _ _ => keeps_dispatch K trivial c
      exact hnode () s hs

end Logic
end TreeScript
