import TreeScript.Proofs.Boundaries.Jumps
import TreeScript.Proofs.Boundaries.Throws
import TreeScript.Proofs.Simulation.Moments

/-
# Signals stop at calls

Each kind of callee has a boundary of its own.  A function of the program settles inside of its live call; a
method, a lambda and a deferred argument inside of a barrier; a coroutine that is resumed takes every signal to
be suspended or finished; the default of a field and an exception that is made settle where they are evaluated;
and native code has no boundary at all.  So no jump leaves a call unless native code of the host raises one,
which is none of the functions that can be called in a tame state; and what leaves it as thrown is an exception
(`Logic.throws`).

Calls call each other, through conversions, through the core library and through `consumer.accept`, and the
state in which one begins is tame because the one before has left it so.
-/

namespace TreeScript

open Exec

namespace Exec

/-! ## No jump leaves an evaluation -/

/-- From no tame state a jump leaves an evaluation. -/
def Contained {α : Type} (n : Nat) (x : Exec α) : Prop :=
  ∀ s : State, s.Tame → ∀ g, (x.run n s).1 = .signal g → g.isJump = false

section
variable {α β : Type} {n : Nat} {x : Exec α}

theorem Jumpless.contained (hx : Jumpless x) : Contained n x := fun s _ => hx _ s

/-- What begins after an evaluation begins in the tame state that this has left. -/
theorem Contained.bind {f : α → Exec β} (hx : Contained n x) (hkeeps : (Logic.throws n).Keeps x)
    (hf : ∀ a, Contained n (f a)) : Contained n (x >>= f) := by
  intro s hs g h
  have hout := hx s hs
  have htame := (hkeeps () s hs).tame
  rw [Exec.run, bind_apply, show x (evaluator n) s = x.run n s from rfl] at h
  generalize x.run n s = r at h hout htame
  obtain ⟨a | k | k, t⟩ := r
  · exact hf a t htame g h
  · cases h
    exact hout g rfl
  · cases h

theorem Contained.asCall {x : Exec Value} (hx : Contained n x) (name : String) :
    Contained n (asCall name x) := by
  intro s hs g h
  rw [Exec.run, asCall_apply] at h
  cases hpush : s.session.calls.push name with
  | error e =>
    rw [hpush] at h
    cases h
    rfl
  | ok calls =>
    rw [hpush] at h
    have hout := hx (s.withCalls calls) (hs.congr rfl rfl)
    rw [Exec.run] at hout
    dsimp only at h
    generalize x (evaluator n) (s.withCalls calls) = r at h hout
    obtain ⟨a | k | k, t⟩ := r
    · cases h
    · have hk := hout k rfl
      cases k <;> cases h <;> first | rfl | cases hk
    · cases h

theorem Contained.withResume (hx : Contained n x) (frames : List ResumeFrame) :
    Contained n (withResume frames x) :=
  fun s hs g h => hx (s.withResume frames) (hs.congr rfl rfl) g h

theorem Contained.asNative (hx : Contained n x) : Contained n (asNative x) := by
  intro s hs g h
  have hout := hx s hs
  change hostFailed (x.run n s).1 = .signal g at h
  generalize (x.run n s).1 = o at h hout
  rcases o with a | k | k
  · cases h
  · have hk := hout k rfl
    cases k <;> cases h <;> first | rfl | cases hk
  · cases h

theorem contained_entering (params : List Param) (args : List Value) : Contained n (entering params args) := by
  intro s _ g h
  cases h

end

/-! ## Coroutines -/

theorem jumpless_untilYield (i : Nat) (x : Exec Value) : Jumpless (untilYield i x) := by
  intro ev s g h
  rw [untilYield] at h
  rcases hr : x ev s with ⟨a | k | k, t⟩ <;> rw [hr] at h
  · cases h
  · cases k <;> cases h <;> rfl
  · cases h

theorem jumpless_beginCoroutine (i : Nat) : Jumpless (beginCoroutine i) := by
  refine (jumpless_heap _).bind fun c => (jumpless_ofExcept _).bind fun begun => ?_
  rcases begun with _ | ⟨frames, running⟩
  · exact jumpless_pure none
  · exact (jumpless_modifyHeap _).bind fun _ => jumpless_pure _

theorem throws_beginCoroutine (n i : Nat) : (Logic.throws n).Keeps (beginCoroutine i) := by
  intro _ s hs
  rw [Exec.run, beginCoroutine_apply]
  rcases (s.heap.coroutine i).begin? with e | _ | ⟨frames, running⟩
  · exact ⟨hs, trivial, fun _ _ => trivial⟩
  · exact ⟨hs, trivial, fun _ _ => trivial⟩
  · exact ⟨hs.congr rfl rfl, trivial, fun _ _ => trivial⟩

/-- A coroutine takes every signal of its body. -/
theorem contained_resumeCoroutine (n i : Nat) : Contained n (resumeCoroutine i) := by
  have K := Logic.lawful_throws n
  rw [resumeCoroutine_eq]
  refine (jumpless_heap _).contained.bind (K.heap _) fun name => Contained.asCall ?_ name
  refine (jumpless_beginCoroutine i).contained.bind (throws_beginCoroutine n i) fun begun => ?_
  rcases begun with _ | ⟨c, frames⟩
  · exact (jumpless_pure _).contained
  · refine (contained_entering c.params c.args).bind (Logic.throws_entering c.params c.args) fun _ => ?_
    exact (jumpless_untilYield i _).contained

/-! ## Functions -/

/-- Tame native code raises no jump. -/
theorem jumpless_runNative {action : NativeAction} (h : action.isTame = true) (scope : Nat)
    (args : List Value) : Jumpless (runNative action scope args) := by
  cases action with
  | constant v => exact jumpless_pure v
  | echo => exact jumpless_make _
  | fail message => exact jumpless_fail _
  | failCustom message => exact jumpless_raise rfl
  | exceptionMessage => exact jumpless_heap _
  | evaluate _ | raiseBreak | raiseReturn | raiseContinue => cases h

theorem jumpless_convertArgs (params : List Param) (args : List Value) : Jumpless (convertArgs params args) :=
  jumpless_coerce.convertArgs params args

/-- Native code has no boundary, and a function of the program settles. -/
theorem jumpless_runRoutine {r : Routine} (h : (Function.routine r).isTame = true) (function : Option Nat)
    (args : List Value) (caller : Nat) : Jumpless (runRoutine function r args caller) := by
  rcases r with ⟨name, parameters, returns, action | body | body⟩
  · refine Jumpless.asNative ((jumpless_convertArgs _ args).bind fun vs => ?_)
    exact jumpless_runNative h caller vs
  · exact (jumpless_acquireScope function).bind fun _ => jumpless_settle _
  · refine (jumpless_convertArgs _ args).bind fun vs => (jumpless_session _).bind fun root => ?_
    exact jumpless_make _

theorem jumpless_joinTexts (args : List Value) : Jumpless (joinTexts args) :=
  (Jumpless.mapM jumpless_stringify args).bind fun _ => jumpless_pure _

theorem jumpless_noCoroutine (v : Value) : Jumpless (noCoroutine v) :=
  (jumpless_heap _).bind fun _ => jumpless_fail _

section
variable {n : Nat}

/-- No jump leaves the core library, if none leaves the call that `consumer.accept` makes. -/
theorem contained_runCore (c : CoreFunction) (args : List Value) {accepting : Exec Value}
    (haccepting : Contained n accepting) : Contained n (runCore c args accepting) := by
  have hprint : ∀ f : String → Session → Session, Contained n (do
      let text ← joinTexts args
      modifySession (f text)
      return .null : Exec Value) := fun f =>
    ((jumpless_joinTexts args).bind fun _ => (jumpless_modifySession _).bind fun _ => jumpless_pure _).contained
  unfold runCore
  cases c with
  | print | printn => exact hprint _
  | typeOf | identity | hexIdentity => exact (jumpless_heap _).contained
  | isNull => exact (jumpless_pure _).contained
  | convert _ ty => exact (jumpless_castValue _ ty).contained
  | clone => exact (jumpless_cloneValue _).contained
  | exit => exact ((jumpless_modifySession _).bind fun _ => jumpless_pure _).contained
  | accept => exact haccepting
  | resume =>
    dsimp only
    split
    · exact contained_resumeCoroutine n _
    · exact (jumpless_noCoroutine _).contained
  | isFinished =>
    dsimp only
    split
    · exact (jumpless_heap _).contained
    · exact (jumpless_noCoroutine _).contained
  | listOf => exact (jumpless_make _).contained
  | mapOf =>
    dsimp only
    split
    · exact (jumpless_fail _).contained
    · exact (jumpless_make _).contained

/-- No jump leaves a call of a tame function, if none leaves the one that `consumer.accept` makes. -/
theorem contained_invokeWith {accepting : Exec Value} (haccepting : Contained n accepting)
    (function : Option Nat) {f : Function} (hf : f.isTame = true) (args : List Value) (caller : Nat) :
    Contained n (invokeWith accepting function f args caller) := by
  have K := Logic.ready_throws n
  have hcount : (Logic.throws n).Keeps (meter Meter.countFunctionCall) :=
    Logic.keeps_count K.toLawful fun _ => rfl
  refine (jumpless_modifySession _).contained.bind hcount fun _ => ?_
  refine Contained.asCall (Contained.withResume ?_ []) f.name
  cases f with
  | routine r => exact (jumpless_runRoutine hf function args caller).contained
  | core c =>
    have hargs : (Logic.throws n).Keeps (convertArgs c.parameters.list args) := fun w =>
      K.weaken (Logic.holds_convertArgs K w _ args) fun _ _ _ => trivial
    refine Contained.asNative ((jumpless_convertArgs _ args).contained.bind hargs fun vs => ?_)
    exact contained_runCore c vs haccepting
  | constructor cls decl? => exact (jumpless_instantiate cls decl? args).contained

/-! ## Callables -/

theorem contained_applyCallable {accepting : Exec Value} (haccepting : Contained n accepting) (caller : Nat)
    (args : List Value) {k : Callable} (hk : ∀ f, k = .function f → f.isTame = true) :
    Contained n (applyCallable accepting caller args k) := by
  cases k with
  | function f =>
    unfold applyCallable
    dsimp only
    split
    · exact contained_invokeWith haccepting none (hk f rfl) args caller
    · exact (jumpless_fail _).contained
  | lambda params body scope =>
    refine Jumpless.contained ((jumpless_modifySession _).bind fun _ => (jumpless_make _).bind fun _ => ?_)
    exact jumpless_asBarrier _ _
  | deferred expr scope => exact (jumpless_asBarrier _ _).contained

/-- The functions among the callables of a tame state are tame. -/
theorem contained_callCallable (caller : Nat) (args : List Value) (callee : Nat) :
    Contained n (callCallable caller args callee) := by
  -- `consumer.accept` calls its first argument with the others
  induction args generalizing callee with
  | nil =>
    intro s hs
    rw [callCallable_eq]
    exact contained_applyCallable (jumpless_fail _).contained caller [] (hs.heap callee) s hs
  | cons v vs ih =>
    have haccept : Contained n (accept caller (v :: vs)) := by
      cases v with
      | callable next => exact ih next
      | _ => exact (jumpless_fail _).contained
    intro s hs
    rw [callCallable_eq]
    exact contained_applyCallable haccept caller (v :: vs) (hs.heap callee) s hs

theorem contained_accept (caller : Nat) (args : List Value) : Contained n (accept caller args) := by
  unfold accept
  split
  · exact contained_callCallable caller _ _
  · exact (jumpless_fail _).contained

theorem contained_invoke (function : Option Nat) {f : Function} (hf : f.isTame = true) (args : List Value)
    (caller : Nat) : Contained n (invoke function f args caller) :=
  contained_invokeWith (contained_accept caller args) function hf args caller

end

/-! ## Calls -/

/-- What may run a callee. -/
inductive Calls : {α : Type} → Exec α → Prop
  /-- A function of the program, coroutine functions among them, of the core library, or of a class. -/
  | function (slot : Option Nat) {f : Function} (hf : f.isTame = true) (args : List Value) (caller : Nat) :
      Calls (invoke slot f args caller)
  /-- A lambda, a deferred argument, or a function as a value. -/
  | callable (caller : Nat) (args : List Value) (callee : Nat) : Calls (callCallable caller args callee)
  | method (i : Nat) (m : Routine) (args : List Value) : Calls (callMethod i m args)
  | constructor (cls : ClassDef) (ctor : Option (ConstructorDecl Node)) (args : List Value) :
      Calls (instantiate cls ctor args)
  | fieldDefault (f : FieldDecl Node) (scope : Nat) : Calls (fieldDefault f scope)
  | exception (e : EvalError) : Calls (exceptionFrom e)
  | coroutine (i : Nat) : Calls (resumeCoroutine i)
  | binary (op : BinaryOp) (l r : Value) : Calls (applyBinary op l r)
  | unary (op : UnaryOp) (v : Value) : Calls (applyUnary op v)
  | truth (v : Value) : Calls (toBool v)
  | text (v : Value) : Calls (stringify v)
  | conversion (v : Value) (ty : TypeKind) : Calls (castValue v ty)
  | copy (v : Value) : Calls (cloneValue v)
  | element (v : Value) (keys : List Value) : Calls (indexGet v keys)
  | setElement (v : Value) (keys : List Value) (new : Value) : Calls (indexSet v keys new)

section
variable {α : Type} {x : Exec α} {n : Nat}

theorem Calls.contained (hx : Calls x) : Contained n x := by
  cases hx with
  | function slot hf args caller => exact contained_invoke slot hf args caller
  | callable caller args callee => exact contained_callCallable caller args callee
  | method i m args => exact (jumpless_callMethod i m args).contained
  | constructor cls ctor args => exact (jumpless_instantiate cls ctor args).contained
  | fieldDefault f scope => exact (jumpless_fieldDefault f scope).contained
  | exception e => exact (jumpless_exceptionFrom e).contained
  | coroutine i => exact contained_resumeCoroutine n i
  | binary op l r => exact (jumpless_applyBinary op l r).contained
  | unary op v => exact (jumpless_applyUnary op v).contained
  | truth v => exact (jumpless_toBool v).contained
  | text v => exact (jumpless_stringify v).contained
  | conversion v ty => exact (jumpless_castValue v ty).contained
  | copy v => exact (jumpless_cloneValue v).contained
  | element v keys => exact (jumpless_indexGet v keys).contained
  | setElement v keys new => exact (jumpless_indexSet v keys new).contained

theorem Calls.keeps (hx : Calls x) : (Logic.throws n).Keeps x := by
  have K := Logic.ready_throws n
  cases hx with
  | function slot hf args caller => exact fun _ => Logic.keeps_invoke K slot caller hf
  | callable caller args callee => exact Logic.keeps_callCallable K caller args callee
  | method i m args => exact fun _ => Logic.keeps_callMethod K i trivial
  | constructor cls ctor args => exact fun _ => Logic.keeps_instantiate K trivial fun _ _ => ⟨trivial, trivial⟩
  | fieldDefault f scope => exact fun _ => Logic.keeps_fieldDefault K scope fun _ _ => trivial
  | exception e => exact Logic.keeps_exceptionFrom K e
  | coroutine i => exact Logic.keeps_resumeCoroutine K i
  | binary op l r => exact Logic.keeps_applyBinary K op l r
  | unary op v => exact Logic.keeps_applyUnary K op v
  | truth v => exact Logic.keeps_toBool K v
  | text v => exact Logic.keeps_stringify K v
  | conversion v ty => exact Logic.keeps_castValue K v ty
  | copy v => exact Logic.keeps_cloneValue K v
  | element v keys => exact Logic.keeps_indexGet K v keys
  | setElement v keys new => exact Logic.keeps_indexSet K v keys new

end
end Exec

/-! ## What calls give back -/

/-- What a call gives back: a value, an exception of a heap, a failure, or nothing if it has stopped. -/
inductive Outcome.Returned {α : Type} (h : Heap) : Outcome α → Prop
  | value (a : α) : Returned h (.value a)
  | thrown {v : Value} (hv : h.isInstance exceptionClass v = true) : Returned h (.signal (.throwValue v))
  | failed (e : EvalError) : Returned h (.signal (.error e))
  | stopped (k : Halt) : Returned h (.halted k)

theorem Outcome.returned_iff {α : Type} {h : Heap} {o : Outcome α} :
    o.Returned h ↔ (∀ g, o = .signal g → g.isJump = false) ∧ o.ThrowsException h := by
  constructor
  · intro ho
    cases ho with
    | value | stopped => exact ⟨fun _ hg => (by cases hg), trivial⟩
    | thrown hv => exact ⟨fun _ hg => (by cases hg; rfl), hv⟩
    | failed => exact ⟨fun _ hg => (by cases hg; rfl), trivial⟩
  · rintro ⟨hjump, hthrown⟩
    rcases o with a | g | k
    · exact .value a
    · have hg := hjump g rfl
      cases g with
      | throwValue v => exact .thrown hthrown
      | error e => exact .failed e
      | breakLoop _ | continueLoop | returnValue _ | yieldValue _ _ => cases hg
    · exact .stopped k

/-- What a call gives back is none of the jumps. -/
theorem Exec.Calls.returned {α : Type} {x : Exec α} (hx : Calls x) (n : Nat) {s : State} (hs : s.Tame) :
    (x.run n s).1.Returned (x.run n s).2.heap ∧ (x.run n s).2.Tame := by
  obtain ⟨htame, hthrown, -⟩ := hx.keeps (n := n) () s hs
  exact ⟨Outcome.returned_iff.mpr ⟨hx.contained s hs, hthrown⟩, htame⟩

/-! ## Tame states everywhere -/

namespace Invariant

/-- The functions that can be called are tame. -/
def tame : Invariant where
  World := Unit
  le _ _ := True
  holds _ := State.Tame
  way _ _ := True
  fits _ _ := True
  enters _ _ := True

theorem tame_kept : tame.Kept where
  le_refl _ := trivial
  le_trans _ _ := trivial
  way_mono _ _ := trivial
  fits_mono _ _ := trivial
  marked_mono _ h := h
  fits_part _ _ := trivial
  enters_fits _ _ := trivial
  suits _ _ _ := trivial
  typed _ _ _ := trivial
  writable _ _ := trivial
  congr {_ _ _} hs hview := State.Tame.congr hs (congrArg View.catalog hview).symm (congrArg View.callables hview).symm
  callable _ _ _ := fun _ _ _ _ => trivial
  addCallable {_ _ _} hs hk := State.Tame.newCallable hs hk
  addCoroutine _ hs _ _ := State.Tame.congr hs rfl rfl
  allows _ _ _ := fun _ _ _ _ => trivial
  addFunction hs hf := State.Tame.addFunction hs (Function.isTame_of_isNative hf)
  reserve _ hs := State.Tame.congr hs rfl rfl
  remember _ _ hs _ := State.Tame.congr hs rfl rfl
  parsed _ _ _ _ _ := trivial
  nextFrame hs _ _ := ⟨(), trivial, State.Tame.congr hs rfl rfl⟩
  forget hs _ := ⟨(), trivial, State.Tame.congr hs rfl rfl⟩
  way_yield _ := trivial
  way_cons _ _ _ := trivial
  barrier hs := ⟨(), trivial, ⟨State.Tame.congr hs rfl rfl, id⟩, fun _ _ _ ht =>
    ⟨(), trivial, State.Tame.congr ht rfl rfl, id⟩⟩
  callScope hs _ := ⟨(), trivial, ⟨hs, id⟩, fun _ _ _ ht => ⟨(), trivial, ht, id⟩⟩
  aside hs _ := ⟨(), fun _ _ => trivial, ⟨State.Tame.congr hs rfl rfl, id⟩, fun _ _ _ ht =>
    ⟨(), trivial, State.Tame.congr ht rfl rfl, id, fun _ _ => trivial⟩⟩
  resumed hs _ := ⟨(), trivial, ⟨State.Tame.congr hs rfl rfl, id⟩,
    fun _ _ _ ht => ⟨(), trivial, State.Tame.congr ht rfl rfl, id⟩,
    fun _ _ _ _ ht _ => ⟨(), trivial, State.Tame.congr ht rfl rfl, id⟩⟩

end Invariant

/-- An evaluation of which both sides of a simulation agree enters and leaves its nodes in tame states. -/
theorem Exec.always_tame {x : Exec Value} {s : State} (hs : s.Tame) (fuel : Nat)
    (hx : ∀ ev, Invariant.tame.toSimulation.Ready (evaluator fuel) ev →
      Invariant.tame.toSimulation.Agrees (evaluator fuel) ev () x x) : Always State.Tame x fuel s := by
  intro alarm react halarm
  have K := Invariant.tame_kept
  have R := Invariant.ready_observed K.upheld (fun _ h => h) (fun _ t ht => halarm t ht) react fuel
  obtain ⟨hlax, -⟩ | ⟨heq, -⟩ :=
    Invariant.eq_of_ends (fun _ h => h) (hx _ R s s (Invariant.rel_self hs))
  · exact hlax.elim
  · exact heq.symm

/-- From a tame state every node of an evaluation is entered and left in a tame state. -/
theorem State.Tame.always {s : State} (hs : s.Tame) (e : Node) (c fuel : Nat) :
    Always State.Tame (eval e c) fuel s :=
  Exec.always_tame hs fuel fun _ R => R.eval trivial rfl

/-- A top-level evaluation begins every node in a tame state as well. -/
theorem Simulation.Fair.always_tame {x : Exec Value} (hx : Simulation.Fair x) (fuel : Nat) {s : State}
    (hs : s.Tame) : Always State.Tame x fuel s :=
  Exec.always_tame hs fuel fun _ R =>
    hx _ Invariant.tame_kept.upheld.lawful R trivial fun _ => trivial

/-! ## Hosts -/

/-- The functions that can be called in a host are tame. -/
structure Host.Tame (host : Host) : Prop where
  heap : host.heap.Tame
  sessions : host.All fun _ s => s.catalog.Tame

/-- A request adds no function that is not tame. -/
def Request.Tame (r : Request) : Prop := ∀ k f, r = .addFunction k f → f.isTame = true

namespace Host

variable {host : Host}

theorem tame_empty : Host.empty.Tame where
  heap i f h := by cases h
  sessions := all_empty _

theorem Tame.runWith (h : host.Tame) (k n : Nat) {x : Exec Value} (hx : (Logic.throws n).Keeps x) :
    (host.runWith k (evaluator n) x).2.Tame := by
  unfold Host.runWith
  cases hsession : host.sessions[k]? with
  | none => exact h
  | some session =>
    have htame := (hx () ⟨host.heap, host.sites, [], session⟩ ⟨h.sessions k session hsession, h.heap⟩).tame
    refine ⟨htame.heap, fun j t ht => ?_⟩
    dsimp only at ht
    rw [getElem?_setSession _ hsession] at ht
    split at ht
    · cases ht
      exact htame.catalog
    · exact h.sessions j t ht

theorem Tame.answer (h : host.Tame) (fuel : Nat → Nat) {r : Request} (hr : r.Tame) :
    (host.answer (fun k => evaluator (fuel k)) r).2.Tame := by
  have hreset : ∀ n f, (∀ s : Session, (f s).catalog = s.catalog) → (Logic.throws n).Keeps (modifySession f) :=
    fun n f hf => Logic.throws_value fun s hs => ⟨⟨_, rfl⟩, hs.congr (hf s.session) rfl⟩
  cases r with
  | start settings =>
    exact ⟨h.heap, h.sessions.start fun k root => Session.tame_new _ root settings⟩
  | prepare n => exact ⟨h.heap, h.sessions⟩
  | evaluate k e =>
    refine h.runWith k _ fun _ => ?_
    exact Logic.keeps_evaluate (Logic.ready_throws _) (hreset _ _ fun _ => rfl) trivial
  | callFunction k name args =>
    refine h.runWith k _ ?_
    exact Logic.keeps_callFunction (Logic.ready_throws _) name args (hreset _ _ fun _ => rfl)
  | addFunction k f => exact ⟨h.heap, h.sessions.change k fun _ _ hs => hs.add (hr k f rfl)⟩
  | removeFunction k name arity => exact ⟨h.heap, h.sessions.change k fun _ _ hs => hs.remove name arity⟩
  | setParser k _ | cancel k _ | takeOutput k => exact ⟨h.heap, h.sessions.change k fun _ _ hs => hs⟩

/-- Over every history in which the host adds tame functions only, all that can be called is tame. -/
theorem Tame.serve (h : host.Tame) (fuel : Nat → Nat) (rs : List Request) (hrs : ∀ r ∈ rs, r.Tame) :
    (host.serve (fun k => evaluator (fuel k)) rs).2.Tame := by
  induction rs generalizing host with
  | nil => exact h
  | cons r rs ih =>
    exact ih (h.answer fuel (hrs r List.mem_cons_self)) fun r' hr' => hrs r' (List.mem_cons_of_mem r hr')

theorem Tame.state (h : host.Tame) {k : Nat} {session : Session} (hk : host.sessions[k]? = some session) :
    State.Tame ⟨host.heap, host.sites, [], session⟩ :=
  ⟨h.sessions k session hk, h.heap⟩

end Host

/-! ## Signals stop at calls -/

/-- **Signals stop at calls.**  What a call gives back in a tame state, whatever runs inside of it, is a value, an
exception or a failure: no break, continue, return or yield leaves it.  It leaves the state tame for the next call.
Every node that is evaluated in a tame state is entered and left in one, and over every history in which the host
adds no native code that raises jumps, its sessions are in tame states. -/
theorem signals_stop_at_calls :
    (∀ (α : Type) (x : Exec α), Calls x → ∀ (fuel : Nat) (s : State), s.Tame →
      (x.run fuel s).1.Returned (x.run fuel s).2.heap ∧ (x.run fuel s).2.Tame) ∧
    (∀ (e : Node) (c fuel : Nat) (s : State), s.Tame → Always State.Tame (eval e c) fuel s) ∧
    ∀ (fuel : Nat → Nat) (rs : List Request), (∀ r ∈ rs, r.Tame) →
      let host := (Host.empty.serve (fun k => evaluator (fuel k)) rs).2
      ∀ k session, host.sessions[k]? = some session →
        let s : State := ⟨host.heap, host.sites, [], session⟩
        s.Tame ∧ ∀ x, Simulation.Fair x → Always State.Tame x (fuel k) s := by
  refine ⟨fun α x hx fuel s hs => hx.returned fuel hs, fun e c fuel s hs => hs.always e c fuel, ?_⟩
  intro fuel rs hrs host k session hk
  have hs := (Host.tame_empty.serve fuel rs hrs).state hk
  exact ⟨hs, fun x hx => hx.always_tame (fuel k) hs⟩

/-- A loop around a call of a function that breaks. -/
def breakingCallee : Node :=
  .block [.functionDef ⟨"f", [], .any, .breakWith (some (.literal (.int 1))), false⟩,
    .whileLoop (.literal (.bool true)) (.breakWith (some (.listLiteral [.call 0 "f" [], .call 0 "f" []])))]

/-- The break gives the call its value, and the loop goes on. -/
theorem signals_stop_at_calls_break :
    let rs : List Request := [.start { Host.bare with library := true }, .evaluate 0 breakingCallee]
    let host := (Host.empty.serve (fun _ => evaluator 9) rs).2
    let f : Function := .routine ⟨"f", .fixed [], .any, .script (.breakWith (some (.literal (.int 1))))⟩
    (∀ r ∈ rs, r.Tame) ∧ Calls (invoke none f [] 0) ∧ host.heap.sequence 0 = #[.int 1, .int 1] ∧
      ∃ session, host.sessions[0]? = some session ∧
        let s : State := ⟨host.heap, host.sites, [], session⟩
        s.Tame ∧ ((invoke none f [] 0).run 9 s).1.Returned ((invoke none f [] 0).run 9 s).2.heap := by
  intro rs host f
  obtain ⟨hcalls, -, hhosts⟩ := signals_stop_at_calls
  have hrs : ∀ r ∈ rs, r.Tame := by
    intro r hr k f hf
    subst hf
    simp [rs] at hr
  have hcall : Calls (invoke none f [] 0) := .function none rfl [] 0
  obtain ⟨session, hsession⟩ : ∃ session, host.sessions[0]? = some session :=
    Option.isSome_iff_exists.mp (by decide +kernel)
  have hs := (hhosts (fun _ => 9) rs hrs 0 session hsession).1
  exact ⟨hrs, hcall, by decide +kernel, session, hsession, hs, (hcalls _ _ hcall 9 _ hs).1⟩

end TreeScript
