import TreeScript.Proofs.Constructs
import TreeScript.Proofs.Simulation.Hooks

/-
# Calls, side by side

Functions, callables, constructors and coroutines.  Every body begins in a world of its own, that of
the boundary around it; what runs there may evaluate every node.

A call written as a result leaves the scope of the caller before the callee begins.  From then on only
what outlives the caller's body is known, which is enough: a function of the program looks at nothing
of its caller's, and no jump but the return leaves the caller's body.
-/

namespace TreeScript

namespace Simulation

open Exec

variable {S : Simulation} {ev ev' : Evaluator} {w : S.World}
variable (L : S.Lawful)
include L

/-! ## Worlds -/

/-- A function keeps being allowed. -/
theorem Allows.mono {w' : S.World} {f : Function} (hf : S.Allows w f) (h : S.unwound w w') :
    S.Allows w' f :=
  fun r node hr hbody => L.fits_mono h (hf r node hr hbody)

/-! ## Objects -/

theorem Run.callable (hcalls : S.Permits w Node.isCall) (i : Nat) :
    S.Run ev ev' w (fun w' k k' => S.SameCallable w' k k') (heap fun h => h.callable i)
      (heap fun h => h.callable i) := by
  intro s s' hs
  exact .value (L.le_refl w) hs (L.callable i hs hcalls)

/-- A new instance, whose fields are in a new scope. -/
theorem agrees_newObject {c c' : Nat} (hc : S.pinned w c c') (cls : ClassDef) :
    S.AgreesOn ev ev' w (fun w' i => S.Known w' i) (make fun h => h.newObject cls c)
      (make fun h => h.newObject cls c') := by
  refine .gives L (P := fun i t => i < t.heap.objects.size) ?_ ?_ fun w' i t hi hlearnt =>
    ⟨_, hlearnt.suits (Heap.suits_instance hi)⟩
  rotate_left
  · intro ev s i t hi
    cases hi
    show s.heap.objects.size < (s.heap.objects.push _).size
    rw [Array.size_push]
    exact Nat.lt_succ_self _
  have heq : ∀ c, (make fun h => h.newObject cls c) =
      (do
        let fields ← make fun h => h.newScope c
        make fun h => (h.objects.size, { h with objects := h.objects.push ⟨cls, fields⟩ }) :
        Exec Nat) := fun _ => rfl
  rw [heq, heq]
  refine .seq L.toOrdered (.newScope L (L.scope_of_pinned hc)) fun w₁ fields fields' h₁ hf => ?_
  intro s s' hs
  refine .value (L.le_refl w₁) (L.addObject cls hs (hf.2 hc)) ?_
  exact (L.alike hs).objectCount

theorem agrees_declareField (i : Nat) (x : String) {ty : TypeKind} {v : Value}
    (hv : S.suits w ty v) :
    S.Agrees ev ev' w (modifyHeap fun h => h.declare (h.object i).fields x ty v)
      (modifyHeap fun h => h.declare (h.object i).fields x ty v) := by
  intro s s' hs
  exact @Run.declare S ev ev' w L _ _ (L.scope_of_pinned (L.fields i hs)) x ty v hv s s' hs

variable (R : S.Ready ev ev')
include R

theorem agrees_fieldDefault (hw : S.closed w) {c c' : Nat} (hc : S.scope w c c')
    (f : FieldDecl Node) (hfits : ∀ e, S.fits w e) :
    S.Agrees ev ev' w (fieldDefault f c) (fieldDefault f c') := by
  unfold fieldDefault
  cases f.default? with
  | some e => exact .settle L.toOrdered hw (R.eval (hfits e) hc)
  | none => exact .make L (Heap.makes_defaultValue f.type)

theorem agrees_initFields (hw : S.closed w) {c c' : Nat} (hc : S.scope w c c') (i : Nat)
    (fs : List (FieldDecl Node)) (hfits : ∀ e, S.fits w e) :
    S.Agrees ev ev' w (initFields i c fs) (initFields i c' fs) := by
  induction fs generalizing w with
  | nil => exact .pure L.toOrdered ()
  | cons f fs ih =>
    refine .bind L.toOrdered (agrees_fieldDefault L R hw hc f hfits) fun w₁ v h₁ => ?_
    refine .bindOn L.toOrdered (converts_coerce L R w₁ v f.type) fun w₂ v h₂ hv => ?_
    refine .bind L.toOrdered (agrees_declareField L i f.name hv) fun w₃ _ h₃ => ?_
    have h := L.le_trans h₁ (L.le_trans h₂ h₃)
    exact ih (L.closed_mono h hw) (L.scope_mono h hc) fun e =>
      L.fits_mono (L.unwound_of_le h) (hfits e)

theorem agrees_construct {i : Nat} (hi : S.Known w i) (cls : ClassDef)
    (ctor : Option (ConstructorDecl Node)) (args : List Value) :
    S.Agrees ev ev' w
      (methodScope i >>= fun c => asBarrier cls.name (construct i c cls ctor args))
      (methodScope i >>= fun c => asBarrier cls.name (construct i c cls ctor args)) := by
  refine .seq L.toOrdered (run_methodScope L hi) fun w₁ c c' _ hc => ?_
  refine .asBarrier L cls.name fun w₂ henter hw => ?_
  have hfits := fun e => L.enters_fits e henter
  have hc₂ := L.scope_of_pinned (L.enters_pinned henter hc)
  refine .bind L.toOrdered (agrees_initFields L R hw hc₂ i cls.fields hfits) fun w₃ _ h₃ => ?_
  have hc₃ := L.scope_mono h₃ hc₂
  cases ctor with
  | none => exact .pure L.toOrdered _
  | some d =>
    refine .bind L.toOrdered (.entering L R d.params args) fun w₄ _ h₄ => ?_
    have hc₄ := L.scope_mono h₄ hc₃
    refine .bind L.toOrdered (agrees_bindParams L R hc₄ d.params args) fun w₅ _ h₅ => ?_
    have h := L.le_trans h₃ (L.le_trans h₄ h₅)
    refine .bind L.toOrdered ?_ fun _ _ _ => .pure L.toOrdered _
    refine .settle L.toOrdered (L.closed_mono h hw) (R.eval ?_ (L.scope_mono h₅ hc₄))
    exact L.fits_mono (L.unwound_of_le h) (hfits d.body)

theorem agrees_instantiate (cls : ClassDef) (ctor : Option (ConstructorDecl Node))
    (args : List Value) :
    S.Agrees ev ev' w (instantiate cls ctor args) (instantiate cls ctor args) := by
  rw [instantiate_eq]
  refine .seq L.toOrdered (.root L) fun w₁ root root' _ hroot => ?_
  refine .bindOn L.toOrdered (agrees_newObject L hroot cls) fun w₂ i _ hi => ?_
  rw [← bind_assoc]
  refine .bind L.toOrdered (agrees_construct L R hi cls ctor args) fun _ _ _ => .pure L.toOrdered _

/-! ## Coroutines -/

theorem agrees_resumeCoroutine (i : Nat) :
    S.Agrees ev ev' w (resumeCoroutine i) (resumeCoroutine i) := by
  refine .bind L.toOrdered (.heap L fun A => A.coroutineName i) fun w₁ name _ => ?_
  refine L.call name fun w₂ hinside => ?_
  intro s s' hs
  have hstate := (L.alike hs).coroutineState i
  have hsilent : ∀ ps args s, entering ps args ev s = (.value (), s) := R.trace
  have hsilent' : ∀ ps args s, entering ps args ev' s = (.value (), s) := R.trace'
  simp only [bind_apply, heap]
  unfold Coroutine.begin?
  rw [hstate]
  cases hst : (s'.heap.coroutine i).state with
  | running => exact .signal (.error _ (L.unwound_of_le (L.le_refl w₂))) hs
  | finished => exact .value (L.le_refl w₂) hs rfl
  | created | suspended =>
    simp only [Exec.ofExcept, pure_apply, bind_apply, hsilent, hsilent']
    refine L.resumed i hs ?_ ?_ fun w₃ c c' e henter _ hc =>
      R.eval (L.enters_fits e (hinside.enters henter)) hc
    · rw [Coroutine.begin?, hstate, hst]
    · rw [Coroutine.begin?, hst]

/-! ## Functions of the program -/

theorem agrees_runScript (hcalls : S.Permits w Node.isCall) (function : Option Nat)
    (ps : List Param) (body : Node) (args : List Value) :
    S.Agrees ev ev' w (runScript function ps body args) (runScript function ps body args) := by
  refine L.callScope function hcalls fun w₁ c c' henter hc => ?_
  refine .bind L.toOrdered (.entering L R ps args) fun w₂ _ h₂ => ?_
  have hc₂ := L.scope_mono h₂ hc
  refine .bind L.toOrdered (agrees_bindParams L R hc₂ ps args) fun w₃ _ h₃ => ?_
  have h := L.unwound_of_le (L.le_trans h₂ h₃)
  exact R.eval (L.fits_mono h (L.enters_fits body henter)) (L.scope_mono h₃ hc₂)

/-! ## The core library -/

theorem agrees_joinTexts (args : List Value) :
    S.Agrees ev ev' w (joinTexts args) (joinTexts args) := by
  refine .bind L.toOrdered ?_ fun _ texts _ => .pure L.toOrdered _
  exact .mapM L.toOrdered _ _ args fun w₁ _ v _ => agrees_stringify L R v

omit R in
theorem agrees_restart (i : Nat) :
    S.Agrees ev ev' w
      (make fun h => let (j, h) := h.restart i; (Value.coroutine j, h))
      (make fun h => let (j, h) := h.restart i; (Value.coroutine j, h)) := by
  intro s s' hs
  obtain ⟨w₁, h₁, hs₁, hlearnt⟩ := L.learn hs
  obtain ⟨hparams, hargs, hbody, horigin⟩ := L.start i hs₁
  have hname := (L.alike hs).coroutineName i
  have hnew := @agrees_newCoroutine S ev ev' w₁ L _ _ horigin (s.heap.coroutine i).name _
    (s.heap.coroutine i).body _ (hlearnt.args i)
  have hends := (hnew s s' hs₁).mono L.toOrdered h₁
  have heq : make (fun h => let (j, h) := h.restart i; (Value.coroutine j, h)) ev' s' =
      newCoroutine (s.heap.coroutine i).name (s.heap.coroutine i).params (s.heap.coroutine i).body
        (s.heap.coroutine i).args (s'.heap.coroutine i).origin ev' s' := by
    rw [hname, hparams, hargs, hbody]
    rfl
  rw [heq]
  exact hends

theorem agrees_cloneValue (v : Value) : S.Agrees ev ev' w (cloneValue v) (cloneValue v) := by
  cases v with
  | list i => exact .make L ((Heap.makes_newSequence fun _ _ A => A.sequence i).map Value.list)
  | array i => exact .make L ((Heap.makes_newSequence fun _ _ A => A.sequence i).map Value.array)
  | map i => exact .make L (Heap.makes_newMap fun _ _ A => A.mapAt i)
  | coroutine i => exact agrees_restart L i
  | object i => exact agrees_callNamedMethod L R i "clone" []
  | _ => exact .pure L.toOrdered _

omit R in
theorem agrees_noCoroutine (v : Value) :
    S.Agrees ev ev' w (noCoroutine v) (noCoroutine v) :=
  agrees_typeMismatch L "coroutine" v

theorem agrees_runCore (c : CoreFunction) (args : List Value) {x y : Exec Value}
    (haccept : S.Agrees ev ev' w x y) :
    S.Agrees ev ev' w (runCore c args x) (runCore c args y) := by
  unfold runCore
  cases c with
  | print =>
    refine .bind L.toOrdered (agrees_joinTexts L R args) fun w₁ text _ => ?_
    refine .bind L.toOrdered (.modifySession L fun hs => ?_) fun _ _ _ => .pure L.toOrdered _
    exact L.withOutput (·.printLine text) hs
  | printn =>
    refine .bind L.toOrdered (agrees_joinTexts L R args) fun w₁ text _ => ?_
    refine .bind L.toOrdered (.modifySession L fun hs => ?_) fun _ _ _ => .pure L.toOrdered _
    exact L.withOutput (·.print text) hs
  | typeOf => exact .heap L fun A => by rw [A.typeName]
  | isNull => exact .pure L.toOrdered _
  | convert _ ty => exact agrees_castValue L R _ ty
  | clone => exact agrees_cloneValue L R _
  | exit =>
    refine .bind L.toOrdered (.modifySession L fun hs => ?_) fun _ _ _ => .pure L.toOrdered _
    exact L.withCancellation (·.mark true) hs
  | identity => exact .heap L fun A => by rw [A.identity]
  | hexIdentity => exact .heap L fun A => by rw [A.identity]
  | accept => exact haccept
  | resume =>
    cases args.headD .null with
    | coroutine i => exact agrees_resumeCoroutine L R i
    | _ => exact agrees_noCoroutine L _
  | isFinished =>
    cases args.headD .null with
    | coroutine i => exact .heap L fun A => by rw [A.isFinished]
    | _ => exact agrees_noCoroutine L _
  | listOf => exact agrees_newList L args
  | mapOf =>
    dsimp only
    split
    · exact .fail L.toOrdered _
    · exact .make L (Heap.makes_newMap fun _ _ _ => rfl)

/-! ## Invocation -/

theorem agrees_runRoutine (hcalls : S.Permits w Node.isCall) (function : Option Nat) {r : Routine}
    (args : List Value) {c c' : Nat} (hc : S.scope w c c') (hr : S.Allows w (.routine r)) :
    S.Agrees ev ev' w (runRoutine function r args c) (runRoutine function r args c') := by
  unfold runRoutine
  cases hbody : r.body with
  | native action =>
    refine .asNative (.bindOn L.toOrdered (agrees_convertArgs L R r.params args) fun w₁ vs h _ => ?_)
    refine agrees_runNative L R (L.scope_mono h hc) (fun node hnode => ?_) vs
    subst hnode
    exact L.fits_mono (L.unwound_of_le h) (hr r node rfl hbody)
  | script body => exact agrees_runScript L R hcalls function r.params body args
  | coroutine body =>
    refine .bindOn L.toOrdered (agrees_convertArgs L R r.params args) fun w₁ vs _ hvs => ?_
    refine .seq L.toOrdered (.root L) fun w₂ root root' h₂ hroot => ?_
    exact agrees_newCoroutine L hroot r.name body (hvs.mono L.toTypingLaws h₂)

/-- A call, if the two sides agree on the one that `consumer.accept` makes. -/
theorem agrees_invokeWith (hcalls : S.Permits w Node.isCall) (function : Option Nat) {f : Function}
    (args : List Value) {c c' : Nat} (hc : S.scope w c c') (hf : S.Allows w f) {x y : Exec Value}
    (haccept : ∀ w₁, S.Permits w₁ Node.isCall → S.scope w₁ c c' → S.Agrees ev ev' w₁ x y) :
    S.Agrees ev ev' w (invokeWith x function f args c) (invokeWith y function f args c') := by
  refine .bind L.toOrdered (.modifySession L fun hs => L.countFunctionCall hs) fun w₁ _ h₁ => ?_
  have hcalls₁ := hcalls.mono L.toOrdered (L.unwound_of_le h₁)
  refine L.call f.name fun w₂ hinside => ?_
  have hcalls₂ := hcalls₁.imp fun _ he => hinside.fits he
  refine L.aside hcalls₂ fun w₃ hscope hfits => ?_
  have hc₃ := hscope c c' (hinside.scope (L.scope_mono h₁ hc))
  have hcalls₃ := hcalls₂.imp hfits
  have hf₁ := hf.mono L (L.unwound_of_le h₁)
  cases f with
  | routine r =>
    exact agrees_runRoutine L R hcalls₃ function args hc₃ fun r node hr hbody =>
      hfits node (hinside.fits (hf₁ r node hr hbody))
  | core k =>
    refine .asNative (.bindOn L.toOrdered (agrees_convertArgs L R _ args) fun w₄ vs h₄ _ => ?_)
    have hcalls₄ := hcalls₃.mono L.toOrdered (L.unwound_of_le h₄)
    exact agrees_runCore L R k vs (haccept w₄ hcalls₄ (L.scope_mono h₄ hc₃))
  | constructor cls decl? => exact agrees_instantiate L R cls decl? args

omit R in
theorem agrees_invalidConsumer : S.Agrees ev ev' w invalidConsumer invalidConsumer :=
  .fail L.toOrdered _

/-- Calling a callable, if the two sides agree on the call that `consumer.accept` makes. -/
theorem agrees_applyCallable (hcalls : S.Permits w Node.isCall) {c c' : Nat} (hc : S.scope w c c')
    (args : List Value) {k k' : Callable} (hk : S.SameCallable w k k') {x y : Exec Value}
    (haccept : ∀ w₁, S.Permits w₁ Node.isCall → S.scope w₁ c c' → S.Agrees ev ev' w₁ x y) :
    S.Agrees ev ev' w (applyCallable x c args k) (applyCallable y c' args k') := by
  cases hk with
  | function hf =>
    unfold applyCallable
    dsimp only
    split
    · exact agrees_invokeWith L R hcalls none args hc hf haccept
    · exact .fail L.toOrdered _
  | lambda ps body hpinned =>
    refine .bind L.toOrdered (.modifySession L fun hs => L.countFunctionCall hs) fun w₁ _ h₁ => ?_
    have hpinned₁ := L.pinned_mono (L.unwound_of_le h₁) hpinned
    refine .seq L.toOrdered (.newScope L (L.scope_of_pinned hpinned₁)) fun w₂ a b _ hab => ?_
    refine .asBarrier L "<lambda>" fun w₃ henter _ => ?_
    have hab₃ := L.scope_of_pinned (L.enters_pinned henter (hab.2 hpinned₁))
    split
    · exact .fail L.toOrdered _
    · refine .bind L.toOrdered (.entering L R ps args) fun w₄ _ h₄ => ?_
      have hab₄ := L.scope_mono h₄ hab₃
      refine .bind L.toOrdered (agrees_bindParams L R hab₄ ps args) fun w₅ _ h₅ => ?_
      have h := L.unwound_of_le (L.le_trans h₄ h₅)
      exact R.eval (L.fits_mono h (L.enters_fits body henter)) (L.scope_mono h₅ hab₄)
  | deferred expr hpinned =>
    refine .asBarrier L "<consumer>" fun w₁ henter _ => ?_
    exact R.eval (L.enters_fits expr henter) (L.scope_of_pinned (L.enters_pinned henter hpinned))

theorem agrees_callCallable (hcalls : S.Permits w Node.isCall) {c c' : Nat} (hc : S.scope w c c')
    (args : List Value) (callee : Nat) :
    S.Agrees ev ev' w (callCallable c args callee) (callCallable c' args callee) := by
  -- `consumer.accept` calls its first argument with the others
  induction args generalizing w callee with
  | nil =>
    rw [callCallable_eq, callCallable_eq]
    refine .seq L.toOrdered (.callable L hcalls callee) fun w₁ k k' h hk => ?_
    have hcalls₁ := hcalls.mono L.toOrdered (L.unwound_of_le h)
    exact agrees_applyCallable L R hcalls₁ (L.scope_mono h hc) [] hk fun _ _ _ =>
      agrees_invalidConsumer L
  | cons v vs ih =>
    rw [callCallable_eq, callCallable_eq]
    refine .seq L.toOrdered (.callable L hcalls callee) fun w₁ k k' h hk => ?_
    have hcalls₁ := hcalls.mono L.toOrdered (L.unwound_of_le h)
    refine agrees_applyCallable L R hcalls₁ (L.scope_mono h hc) (v :: vs) hk fun w₂ hcalls₂ hc₂ => ?_
    cases v with
    | callable next => exact ih hcalls₂ hc₂ next
    | _ => exact agrees_invalidConsumer L

theorem agrees_accept (hcalls : S.Permits w Node.isCall) {c c' : Nat} (hc : S.scope w c c')
    (args : List Value) :
    S.Agrees ev ev' w (accept c args) (accept c' args) := by
  unfold accept
  split
  · exact agrees_callCallable L R hcalls hc _ _
  · exact agrees_invalidConsumer L

theorem agrees_invoke (hcalls : S.Permits w Node.isCall) (function : Option Nat) {f : Function}
    (args : List Value) {c c' : Nat} (hc : S.scope w c c') (hf : S.Allows w f) :
    S.Agrees ev ev' w (invoke function f args c) (invoke function f args c') :=
  agrees_invokeWith L R hcalls function args hc hf fun _ hcalls₁ hc₁ =>
    agrees_accept L R hcalls₁ hc₁ args

/-! ## Call sites -/

omit R in
theorem run_resolveCall (hcalls : S.Permits w Node.isCall) (site : Nat) (name : String)
    (argc : Nat) :
    S.Run ev ev' w (fun w' p q => p = q ∧ S.Allows w' p.2) (resolveCall site name argc)
      (resolveCall site name argc) := by
  intro s s' hs
  have hallows : ∀ slot f, s.session.catalog.get? slot = some f → S.Allows w f :=
    fun slot f h => L.allows hs hcalls h
  rw [resolveCall_apply, resolveCall_apply, remembered, remembered, ← L.sites hs, ← L.id hs,
    ← L.catalog hs]
  cases hget : (s.sites.get? site s.session.id).bind s.session.catalog.get? with
  | some f =>
    obtain ⟨slot, hslot, hf⟩ := Option.bind_eq_some_iff.mp hget
    rw [hslot]
    simp only [Option.bind_some, hf, Option.map_some]
    exact .value (L.le_refl w) hs ⟨rfl, hallows slot f hf⟩
  | none =>
    have hnone : ((s.sites.get? site s.session.id).bind fun slot =>
        (s.session.catalog.get? slot).map fun f => (slot, f)) = none := by
      cases hslot : s.sites.get? site s.session.id with
      | none => rfl
      | some slot =>
        rw [hslot, Option.bind_some] at hget
        rw [Option.bind_some, hget]
        rfl
    rw [hnone]
    cases hcallee : s.session.catalog.callee? name argc with
    | none => exact .signal (.error _ (L.unwound_of_le (L.le_refl w))) hs
    | some callee =>
      obtain ⟨slot, f⟩ := callee
      have hremember := L.remember site slot hs hget
      rw [← L.sites hs, ← L.id hs] at hremember
      refine .value (L.le_refl w) hremember ⟨rfl, hallows slot f ?_⟩
      exact Catalog.get?_of_callee? hcallee

omit R in
/-- A callable that is made from the body which runs. -/
theorem agrees_capture {k k' : Callable} (hcode : ∀ f, k ≠ .function f)
    (hk : ∀ w', S.le w w' → (∀ c c', S.scope w c c' → S.pinned w' c c') → S.SameCallable w' k k') :
    S.Agrees ev ev' w (capture k) (capture k') := by
  intro s s' hs
  obtain ⟨w', hle, hpinned, hrel⟩ := L.retain hs
  refine .value hle (L.addCallable hrel (hk w' hle hpinned) hcode) ?_
  exact congrArg Value.callable (L.alike hs).callableCount

theorem agrees_evalArgs {c c' : Nat} (hc : S.scope w c c') (ps : List Param) {args : List Node}
    (hargs : ∀ e ∈ args, S.fits w e) :
    S.Agrees ev ev' w (evalArgs c ps args) (evalArgs c' ps args) := by
  induction args generalizing w ps with
  | nil => exact .pure L.toOrdered []
  | cons e es ih =>
    have hrest : ∀ w₁ v, S.le w w₁ → S.Agrees ev ev' w₁
        (do return v :: (← evalArgs c ps.tail es)) (do return v :: (← evalArgs c' ps.tail es)) := by
      intro w₁ v h₁
      refine .bind L.toOrdered (ih (L.scope_mono h₁ hc) ps.tail fun e he => ?_) fun _ _ _ =>
        .pure L.toOrdered _
      exact L.fits_mono (L.unwound_of_le h₁) (hargs e (List.mem_cons_of_mem _ he))
    unfold evalArgs
    cases Parameters.isDeferredAt ps 0 with
    | true =>
      refine .bind L.toOrdered (agrees_capture L (fun _ h => by cases h) fun w₁ h₁ hpinned => ?_) hrest
      exact .deferred e (hpinned c c' hc)
    | false => exact .bind L.toOrdered (R.eval (hargs e List.mem_cons_self) hc) hrest

/-- A call that does not leave the caller's scope. -/
theorem agrees_applyCallee (hcalls : S.Permits w Node.isCall) {c c' : Nat} (hc : S.scope w c c')
    (slot : Nat) {f : Function} (hf : S.Allows w f) {args : List Node}
    (hargs : ∀ e ∈ args, S.fits w e) {tail : Bool} (htail : (tail && f.isScript) = false) :
    S.Agrees ev ev' w (applyCallee slot f args c tail) (applyCallee slot f args c' tail) := by
  refine .bind L.toOrdered (agrees_evalArgs L R hc f.params hargs) fun w₁ vs h₁ => ?_
  rw [htail]
  have hu := L.unwound_of_le h₁
  exact agrees_invoke L R (hcalls.mono L.toOrdered hu) (some slot) vs (L.scope_mono h₁ hc)
    (hf.mono L hu)

theorem agrees_evalCall {c c' : Nat} (hc : S.scope w c c') {site : Nat} {name : String}
    {args : List Node} (hcall : S.fits w (.call site name args)) :
    S.Agrees ev ev' w (evalCall site name args c false) (evalCall site name args c' false) := by
  rw [evalCall_eq, evalCall_eq]
  have hcalls : S.Permits w Node.isCall := ⟨_, hcall, rfl⟩
  refine .seq L.toOrdered (run_resolveCall L hcalls site name args.length) fun w₁ p q h₁ hp => ?_
  obtain ⟨rfl, hallows⟩ := hp
  have hu := L.unwound_of_le h₁
  exact agrees_applyCallee L R (hcalls.mono L.toOrdered hu) (L.scope_mono h₁ hc) p.1 hallows
    (fun e he => L.fits_mono hu (L.fits_part hcall he)) rfl

/-! ## Calls as results -/

/-- A call of a function of the program, of whose caller's scope nothing is known. -/
theorem agrees_invokeScript (hcalls : S.Permits w Node.isCall) (slot : Option Nat) {f : Function}
    (hscript : f.isScript = true) (args : List Value) (c c' : Nat) :
    S.Agrees ev ev' w (invoke slot f args c) (invoke slot f args c') := by
  -- it looks at nothing of its caller
  rcases f with ⟨name, ps, ty, _ | body | _⟩ | _ | _ <;> try cases hscript
  refine .bind L.toOrdered (.modifySession L fun hs => L.countFunctionCall hs) fun w₁ _ h₁ => ?_
  have hcalls₁ := hcalls.mono L.toOrdered (L.unwound_of_le h₁)
  refine L.call name fun w₂ hinside => ?_
  have hcalls₂ := hcalls₁.imp fun _ he => hinside.fits he
  refine L.aside hcalls₂ fun w₃ _ hfits => ?_
  exact agrees_runScript L R (hcalls₂.imp hfits) slot ps.list body args

omit R in
/-- What returns its result may run after the body's scope has been left, if it raises no jump. -/
theorem ends_return {x y : Exec Value} {w' : S.World} {s s' : State} (h : S.unwound w w')
    (hjump : Jumpless x) (hends : S.Ends w' (fun _ a b => a = b) (x ev s) (y ev' s')) :
    S.Ends w (fun _ (a b : Value) => a = b)
      (returning x ev s) (returning y ev' s') := by
  have hx := hjump ev s
  unfold returning
  rw [bind_apply, bind_apply]
  generalize x ev s = p at hends hx ⊢
  generalize y ev' s' = q at hends ⊢
  cases hends with
  | value hle hrel hab =>
    subst hab
    exact .signal (.returnValue _ (L.unwound_trans h (L.unwound_of_le hle))) hrel
  | signal hg hrel =>
    have hg' := hx _ rfl
    cases hg with
    | throwValue v h₁ => exact .signal (.throwValue v (L.unwound_trans h h₁)) hrel
    | error e h₁ => exact .signal (.error e (L.unwound_trans h h₁)) hrel
    | _ => cases hg'
  | halted k h₁ hrel => exact .halted k (L.unwound_trans h h₁) hrel
  | stopped t _ hlax => exact .stopped t _ hlax

/-- A call as a result leaves the caller's scope before the callee begins. -/
theorem agrees_returnCallee (hcalls : S.Permits w Node.isCall) {c c' : Nat} (hc : S.scope w c c')
    (slot : Nat) {f : Function} (hf : S.Allows w f) {args : List Node}
    (hargs : ∀ e ∈ args, S.fits w e) :
    S.Agrees ev ev' w (returning (applyCallee slot f args c true))
      (returning (applyCallee slot f args c' true)) := by
  cases hscript : f.isScript with
  | false =>
    refine .bind L.toOrdered
      (agrees_applyCallee L R hcalls hc slot hf hargs (by rw [hscript]; rfl)) ?_
    exact fun w₁ v _ => .raise L.toOrdered fun _ h => .returnValue v (L.unwound_of_le h)
  | true =>
    have heq : ∀ c, returning (applyCallee slot f args c true) =
        (do
          let vs ← evalArgs c f.params args
          modifySession Session.releaseFrame
          returning (invoke (some slot) f vs c)) := by
      intro c
      simp only [returning, applyCallee, hscript, Bool.and_self, if_true, bind_assoc]
    rw [heq, heq]
    refine .bind L.toOrdered (agrees_evalArgs L R hc f.params hargs) fun w₁ vs h₁ => ?_
    intro s s' hs
    obtain ⟨w₂, hunwound, hrel⟩ := L.release hs
    have hcalls₂ := hcalls.mono L.toOrdered (L.unwound_trans (L.unwound_of_le h₁) hunwound)
    exact ends_return L hunwound (jumpless_invoke_script hscript _ _ _)
      (agrees_invokeScript L R hcalls₂ (some slot) hscript vs c c' _ _ hrel)

end Simulation
end TreeScript
