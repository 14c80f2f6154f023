import TreeScript.Proofs.Logic.Basic

/-
# Methods, conversions and calls, in a lawful logic

If the nodes inside a construct end as they should, so does the construct.  What is found by a lookup for
a number of arguments is called with that number of arguments: this is where code that is read from the
state comes to run.
-/

namespace TreeScript

open Exec

namespace Logic

/-- A lawful logic in which the nodes that are known end as they should. -/
structure Ready (L : Logic) : Prop extends L.Lawful where
  eval : ∀ {w e}, L.code w e → ∀ c, L.KeepsAt w (eval e c)

/-- Converting values ends as it should. -/
def Converts (L : Logic) (convert : Value → TypeKind → Exec Value) : Prop :=
  ∀ v ty, L.Keeps (convert v ty)

variable {L : Logic} {w : L.World}

/-! ## Steps that leave the kernel -/

section

/-- Counting anything but nodes. -/
theorem kernel_count (s : State) {f : Counters → Counters} (hf : ∀ c, (f c).nodes = c.nodes) :
    (s.withMeter (s.session.meter.count f)).kernel = s.kernel := by
  have hnodes : (s.session.meter.counters.map f).map Counters.nodes =
      s.session.meter.counters.map Counters.nodes := by
    rw [Option.map_map, show Counters.nodes ∘ f = Counters.nodes from funext hf]
  show ({ s.core with nodes := (s.session.meter.counters.map f).map Counters.nodes }, _) = s.kernel
  rw [hnodes]
  rfl

theorem kernel_countPool (s : State) (hit : Bool) :
    (s.withMeter (s.session.meter.countPool hit)).kernel = s.kernel :=
  kernel_count s fun _ => by cases hit <;> rfl

theorem kernel_retainFrame (s : State) : (s.withSession s.session.retainFrame).kernel = s.kernel := by
  unfold Session.retainFrame
  split <;> rfl

theorem kernel_releaseFrame (s : State) :
    (s.withSession s.session.releaseFrame).kernel = s.kernel := by
  unfold Session.releaseFrame
  split <;> rfl

end

/-! ## Parameters -/

section
variable (K : L.Lawful) {convert : Value → TypeKind → Exec Value} (hconvert : L.Converts convert)
include K hconvert

theorem keeps_bindParamsWith (scope : Nat) (params : List Param) (args : List Value) :
    L.Keeps (bindParamsWith convert scope params args) := by
  induction params generalizing args with
  | nil =>
    unfold bindParamsWith
    exact K.pure ()
  | cons p ps ih =>
    cases args with
    | nil => exact K.pure ()
    | cons v vs =>
      exact K.seq (hconvert v p.type) fun w => K.seq (K.modifyHeap fun _ => rfl) fun _ => ih vs

/-- As many arguments are converted as there are. -/
theorem holds_convertArgsWith (w : L.World) (params : List Param) (args : List Value) :
    L.holds w (convertArgsWith convert params args) fun _ vs => vs.length = args.length := by
  induction params generalizing w args with
  | nil =>
    unfold convertArgsWith
    exact K.give rfl
  | cons p ps ih =>
    cases args with
    | nil => exact K.give rfl
    | cons v vs =>
      refine K.next (hconvert v p.type) fun w₁ _ u => K.bind (ih w₁ vs) fun _ _ us hus => K.give ?_
      rw [List.length_cons, List.length_cons, hus]

end

section
variable (K : L.Lawful)
include K

theorem keeps_checkInstance (v : Value) (cls : String) : L.Keeps (checkInstance v cls) := by
  refine K.seq (K.heap _) fun b => ?_
  split
  · exact K.pure v
  · exact K.seq (K.heap _) fun _ => K.fail rfl

theorem converts_convertWord : L.Converts convertWord := by
  intro v ty
  unfold convertWord
  split
  · exact K.pure v
  · split
    · exact keeps_checkInstance K v _
    · exact K.makeChecked (Heap.makesChecked_cast v _) (Heap.failsWith_cast · v _)

theorem keeps_count {f : Counters → Counters} (hf : ∀ c, (f c).nodes = c.nodes) :
    L.Keeps (meter (Meter.count · f)) :=
  K.modifySession fun s => kernel_count s hf

theorem holds_classOf (w : L.World) (i : Nat) : L.holds w (heap fun h => h.classOf i) L.cls :=
  K.gets fun _ hs => K.classOf hs i

theorem holds_findMethod (w : L.World) (i : Nat) (name : String) (argc : Nat) :
    L.holds w (findMethod i name argc) fun w' m => L.routine w' m argc := by
  refine K.bind (holds_classOf K w i) fun _ _ cls hcls => ?_
  split
  · rename_i m hm
    exact K.give (K.method hcls hm)
  · exact K.fail rfl _

end

/-! ## Methods -/

variable (K : L.Ready)
include K

theorem keeps_runNative {action : NativeAction} (scope : Nat) (args : List Value)
    (hcode : ∀ e, action = .evaluate e → L.code w e) : L.KeepsAt w (runNative action scope args) := by
  unfold runNative
  cases action with
  | constant v => exact K.pure v w
  | echo => exact K.makes (Heap.makes_newList args) w
  | fail message => exact K.fail rfl w
  | failCustom message => exact K.failNoted rfl _ w
  | evaluate node => exact K.eval (hcode node rfl) scope
  | raiseBreak | raiseReturn =>
    exact K.next (K.makes (Heap.makes_newList args)) fun w₁ _ _ => K.raise (by trivial) w₁
  | raiseContinue => exact K.raise (by trivial) w
  | exceptionMessage => exact K.heap _ w

/-- The native code of a routine evaluates nodes that are known. -/
theorem keeps_runNative_of_routine {r : Routine} {n : Nat} {action : NativeAction} {w' : L.World}
    (hr : L.routine w r n) (hbody : r.body = .native action) (hw : L.le w w') (scope : Nat)
    (args : List Value) : L.KeepsAt w' (runNative action scope args) := by
  refine keeps_runNative K scope args fun e he => K.code_mono hw (K.body hr ?_)
  rw [hbody, he]
  rfl

theorem keeps_asBarrier {x : Exec Value} (hx : L.KeepsAt w x) (name : String) :
    L.KeepsAt w (asBarrier name x) :=
  K.asCall (K.settle (K.withResume (K.withFrame hx .barrier) [])) name

/-- A method runs with the number of arguments for which it was found. -/
theorem keeps_callMethodWith {convert : Value → TypeKind → Exec Value} (hconvert : L.Converts convert)
    (i : Nat) {m : Routine} {args : List Value} (hm : L.routine w m args.length) :
    L.KeepsAt w (callMethodWith convert i m args) := by
  refine K.next (keeps_count K.toLawful fun _ => rfl) fun w₁ h₁ _ => ?_
  refine K.next (K.make fun _ => rfl) fun w₂ h₂ scope => ?_
  have hm₂ := K.routine_mono (K.le_trans h₁ h₂) hm
  have hargs := holds_convertArgsWith K.toLawful hconvert w₂ m.params args
  cases hbody : m.body with
  | native action =>
    refine keeps_asBarrier K (K.asNative ?_) m.name
    exact K.bind hargs fun w₃ h₃ vs _ => keeps_runNative_of_routine K hm₂ hbody h₃ scope vs
  | script body =>
    refine keeps_asBarrier K ?_ m.name
    have henters := K.entersRoutine hm₂ fun action h => by rw [hbody] at h; cases h
    have hcode : L.code w₂ body := K.body hm₂ (by rw [hbody]; rfl)
    refine K.next (K.entering henters) fun w₃ h₃ _ => ?_
    refine K.next (keeps_bindParamsWith K.toLawful hconvert scope _ args) fun w₄ h₄ _ => ?_
    exact K.eval (K.code_mono (K.le_trans h₃ h₄) hcode) scope
  | coroutine body =>
    exact K.bind hargs fun w₃ h₃ vs hvs =>
      K.newCoroutine scope (hvs ▸ K.routine_mono h₃ hm₂) hbody

/-! ## Asking the class -/

theorem keeps_askCast (i : Nat) (target : String) : L.Keeps (askCast i target) := by
  intro w
  have hread : L.holds w (heap fun h => (h.classOf i).method? "cast" 1)
      fun w' m => ∀ r ∈ m, L.routine w' r 1 :=
    K.gets fun _ hs r hr => K.method (K.classOf hs i) hr
  refine K.bind hread fun w₁ _ m hm => ?_
  cases m with
  | none => exact K.pure none w₁
  | some m =>
    have hconvert := converts_convertWord K.toLawful
    have hcall : L.KeepsAt w₁ (callMethodWith convertWord i m [.str target]) :=
      keeps_callMethodWith K hconvert i (hm m rfl)
    exact K.last hcall fun v => K.pure (some v)

theorem keeps_toBool (v : Value) : L.Keeps (toBool v) := by
  refine K.seq (K.heap _) fun b => ?_
  split
  · exact K.pure _
  · split
    · refine K.seq (keeps_askCast K _ _) fun w => ?_
      split
      · exact K.heap _
      · exact K.seq (K.heap _) fun _ => K.fail rfl
    · exact K.pure true

theorem keeps_objectText (i : Nat) : L.Keeps (objectText i) := by
  refine K.seq (keeps_askCast K i _) fun w => ?_
  split
  · exact K.read (Heap.failsWith_render · _) fun r hr => K.ofChecked hr
  · exact K.heap _

theorem keeps_stringifyTo (depth : Nat) (v : Value) (nested : Bool) :
    L.Keeps (stringifyTo depth v nested) := by
  induction depth generalizing v nested with
  | zero =>
    unfold stringifyTo
    exact K.halt _
  | succ depth ih =>
    unfold stringifyTo
    refine K.seq (K.heap _) fun shape => ?_
    split
    · exact K.pure _
    · exact keeps_objectText K _
    · exact ih _ nested
    · intro w
      exact K.holding (K.seq (K.mapM fun v _ => ih v _) (fun _ => K.pure _) w) _
    · intro w
      refine K.holding (K.seq (K.mapM fun (k, v) _ => ?_) (fun _ => K.pure _) w) _
      exact K.seq (ih k false) fun _ => K.seq (ih v true) fun _ => K.pure _

theorem keeps_stringify (v : Value) : L.Keeps (stringify v) :=
  K.seq K.fuel fun depth => keeps_stringifyTo K depth v false

/-! ## Conversion -/

theorem keeps_objectToNumber (i : Nat) (ty : TypeKind) : L.Keeps (objectToNumber i ty) := by
  have hfailure : L.Keeps (do fail (.invalidCast (← heap fun h => (h.classOf i).name) ty.text) :
      Exec Value) := K.seq (K.heap _) fun _ => K.fail rfl
  refine K.seq (keeps_askCast K i _) fun w => ?_
  split
  · exact hfailure
  · exact K.makeChecked (Heap.makesChecked_cast _ ty) (Heap.failsWith_cast · _ ty)
  · exact hfailure

theorem keeps_castValue (v : Value) (ty : TypeKind) : L.Keeps (castValue v ty) := by
  unfold castValue
  split
  · exact K.pure v
  · split
    · exact K.seq (keeps_toBool K v) fun _ => K.pure _
    · split
      · exact K.pure _
      · exact K.seq (keeps_stringify K v) fun _ => K.pure _
    · exact keeps_checkInstance K.toLawful v _
    · split
      · split
        · exact keeps_objectToNumber K _ _
        · exact K.makeChecked (Heap.makesChecked_cast _ _) (Heap.failsWith_cast · _ _)
      · exact K.makeChecked (Heap.makesChecked_cast _ _) (Heap.failsWith_cast · _ _)

theorem converts_coerce : L.Converts coerce := by
  intro v ty
  unfold coerce
  split
  · exact K.pure v
  · exact keeps_castValue K v ty

theorem keeps_bindParams (scope : Nat) (params : List Param) (args : List Value) :
    L.Keeps (bindParams scope params args) :=
  keeps_bindParamsWith K.toLawful (converts_coerce K) scope params args

theorem holds_convertArgs (w : L.World) (params : List Param) (args : List Value) :
    L.holds w (convertArgs params args) fun _ vs => vs.length = args.length :=
  holds_convertArgsWith K.toLawful (converts_coerce K) w params args

theorem keeps_callMethod (i : Nat) {m : Routine} {args : List Value}
    (hm : L.routine w m args.length) : L.KeepsAt w (callMethod i m args) :=
  keeps_callMethodWith K (converts_coerce K) i hm

theorem keeps_callNamedMethod (i : Nat) (name : String) (args : List Value) :
    L.Keeps (callNamedMethod i name args) :=
  fun w => K.bind (holds_findMethod K.toLawful w i name args.length) fun _ _ _ hm =>
    keeps_callMethod K i hm

/-! ## Objects -/

theorem keeps_fieldDefault {f : FieldDecl Node} (scope : Nat)
    (hcode : ∀ e, f.default? = some e → L.code w e) : L.KeepsAt w (fieldDefault f scope) := by
  unfold fieldDefault
  split
  · rename_i e he
    exact K.settle (K.eval (hcode e he) scope)
  · exact K.makes (Heap.makes_defaultValue f.type) w

theorem keeps_initFields (i scope : Nat) (fields : List (FieldDecl Node))
    (hcode : ∀ f ∈ fields, ∀ e, f.default? = some e → L.code w e) :
    L.KeepsAt w (initFields i scope fields) := by
  induction fields generalizing w with
  | nil => exact K.pure () w
  | cons f fs ih =>
    refine K.bind (keeps_fieldDefault K scope (hcode f List.mem_cons_self)) fun w₁ h₁ v _ => ?_
    refine K.next (converts_coerce K v f.type) fun w₂ h₂ u => ?_
    refine K.next (K.modifyHeap fun _ => rfl) fun w₃ h₃ _ => ih fun g hg e he => ?_
    exact K.code_mono (K.le_trans h₁ (K.le_trans h₂ h₃)) (hcode g (List.mem_cons_of_mem f hg) e he)

theorem keeps_instantiate {cls : ClassDef} (hcls : L.cls w cls)
    {ctor : Option (ConstructorDecl Node)} {args : List Value}
    (hctor : ∀ d, ctor = some d → L.Begins w d args) : L.KeepsAt w (instantiate cls ctor args) := by
  refine K.next (K.session _) fun w₁ h₁ root => ?_
  refine K.bind (K.newObject root (K.cls_mono h₁ hcls)) fun w₂ h₂ i _ => ?_
  refine K.next (K.make fun _ => rfl) fun w₃ h₃ scope => ?_
  have h := K.le_trans h₁ (K.le_trans h₂ h₃)
  refine K.last (keeps_asBarrier K ?_ cls.name) fun _ => K.pure _
  have hfields := keeps_initFields K i scope cls.fields fun f hf e he => K.default (K.cls_mono h hcls) hf he
  refine K.bind hfields fun w₄ h₄ _ _ => ?_
  split
  · rename_i d
    obtain ⟨henters, hcode⟩ := hctor d rfl
    refine K.next (K.entering henters) fun w₅ h₅ _ => ?_
    refine K.next (keeps_bindParams K scope _ args) fun w₆ h₆ _ => ?_
    have hbody := K.code_mono (K.le_trans h (K.le_trans h₄ (K.le_trans h₅ h₆))) hcode
    exact K.last (K.settle (K.eval hbody scope)) fun _ => K.pure _
  · exact K.pure _ _

/-! ## Coroutines -/

theorem keeps_resumeCoroutine (i : Nat) : L.Keeps (resumeCoroutine i) := by
  intro w
  rw [resumeCoroutine_eq]
  refine K.next (K.heap _) fun w₁ _ name => K.asCall (K.resumed i fun w₂ _ c frames hcode => ?_) name
  exact K.withResume (K.withFrame (K.eval hcode c.scope) _) frames

/-! ## Functions of the program -/

theorem keeps_acquireScope (function : Option Nat) : L.Keeps (acquireScope function) := by
  refine K.seq (K.session _) fun root => ?_
  cases function with
  | none => exact K.make fun _ => rfl
  | some slot =>
    refine K.seq (K.session _) fun found => ?_
    cases found with
    | none => exact K.seq (K.modifySession fun s => kernel_countPool s false) fun _ => K.make fun _ => rfl
    | some found =>
      refine K.seq (K.modifySession fun s => kernel_countPool s true) fun _ => ?_
      exact K.seq (K.modifyHeap fun _ => rfl) fun _ => K.pure _

theorem keeps_runScript (function : Option Nat) {params : List Param} {body : Node}
    {args : List Value} (hargs : L.enters params args) (hbody : L.code w body) :
    L.KeepsAt w (runScript function params body args) := by
  refine K.next (keeps_acquireScope K function) fun w₁ h₁ scope => ?_
  refine K.settle (K.withFrame ?_ _)
  refine K.next (K.entering hargs) fun w₂ h₂ _ => ?_
  refine K.next (keeps_bindParams K scope params args) fun w₃ h₃ _ => ?_
  exact K.eval (K.code_mono (K.le_trans h₁ (K.le_trans h₂ h₃)) hbody) scope

/-! ## The core library -/

theorem keeps_joinTexts (args : List Value) : L.Keeps (joinTexts args) :=
  K.seq (K.mapM fun v _ => keeps_stringify K v) fun _ => K.pure _

theorem keeps_cloneValue (v : Value) : L.Keeps (cloneValue v) := by
  cases v with
  | list i => exact K.makes ((Heap.makes_newSequence fun _ _ A => A.sequence i).map Value.list)
  | array i => exact K.makes ((Heap.makes_newSequence fun _ _ A => A.sequence i).map Value.array)
  | map i => exact K.makes (Heap.makes_newMap fun _ _ A => A.mapAt i)
  | coroutine i => exact K.restart i
  | object i => exact keeps_callNamedMethod K i "clone" []
  | _ => exact K.pure _

theorem keeps_noCoroutine (v : Value) : L.Keeps (noCoroutine v) :=
  K.seq (K.heap _) fun _ => K.fail rfl

theorem keeps_runCore (c : CoreFunction) (args : List Value) {accepting : Exec Value}
    (haccepting : L.Keeps accepting) : L.Keeps (runCore c args accepting) := by
  unfold runCore
  cases c with
  | print | printn =>
    refine K.seq (keeps_joinTexts K args) fun text => ?_
    exact K.seq (K.modifySession fun _ => rfl) fun _ => K.pure _
  | typeOf | identity | hexIdentity => exact K.heap _
  | isNull => exact K.pure _
  | convert _ ty => exact keeps_castValue K _ ty
  | clone => exact keeps_cloneValue K _
  | exit => exact K.seq K.mark fun _ => K.pure _
  | accept => exact haccepting
  | resume =>
    dsimp only
    split
    · exact keeps_resumeCoroutine K _
    · exact keeps_noCoroutine K _
  | isFinished =>
    dsimp only
    split
    · exact K.heap _
    · exact keeps_noCoroutine K _
  | listOf => exact K.makes (Heap.makes_newList args)
  | mapOf =>
    dsimp only
    split
    · exact K.fail rfl
    · exact K.makes (Heap.makes_newMap fun _ _ _ => rfl)

/-! ## Invocation -/

theorem keeps_runRoutine (function : Option Nat) {r : Routine} {args : List Value} (caller : Nat)
    (hr : L.routine w r args.length) : L.KeepsAt w (runRoutine function r args caller) := by
  have hargs := holds_convertArgs K w r.params args
  unfold runRoutine
  cases hbody : r.body with
  | native action =>
    refine K.asNative (K.bind hargs fun w₁ h₁ vs _ => ?_)
    exact keeps_runNative_of_routine K hr hbody h₁ caller vs
  | script body =>
    have henters := K.entersRoutine hr fun action h => by rw [hbody] at h; cases h
    exact keeps_runScript K function henters (K.body hr (by rw [hbody]; rfl))
  | coroutine body =>
    refine K.bind hargs fun w₁ h₁ vs hvs => K.next (K.session _) fun w₂ h₂ root => ?_
    exact K.newCoroutine root (hvs ▸ K.routine_mono (K.le_trans h₁ h₂) hr) hbody

/-- A call, if the one that `consumer.accept` makes ends as it should. -/
theorem keeps_invokeWith {accepting : Exec Value} (haccepting : L.Keeps accepting)
    (function : Option Nat) {f : Function} {args : List Value} (caller : Nat)
    (hf : L.function w f args.length) :
    L.KeepsAt w (invokeWith accepting function f args caller) := by
  refine K.next (keeps_count K.toLawful fun _ => rfl) fun w₁ h₁ _ => ?_
  refine K.asCall (K.withResume ?_ []) f.name
  have hf₁ := K.function_mono h₁ hf
  cases f with
  | routine r => exact keeps_runRoutine K function caller (K.routine hf₁)
  | core c =>
    have hargs := holds_convertArgs K w₁ c.parameters.list args
    exact K.asNative (K.bind hargs fun w₂ _ vs _ => keeps_runCore K c vs haccepting w₂)
  | constructor cls decl? =>
    obtain ⟨hcls, hctor⟩ := K.constructed hf₁
    exact keeps_instantiate K hcls hctor

/-- Calling a callable, if the call that `consumer.accept` makes ends as it should.  A lambda counts its
arguments itself. -/
theorem keeps_applyCallable {accepting : Exec Value} (haccepting : L.Keeps accepting) (caller : Nat)
    (args : List Value) {k : Callable} (hk : L.Knows w k) :
    L.KeepsAt w (applyCallable accepting caller args k) := by
  cases k with
  | function f =>
    unfold applyCallable
    dsimp only
    split
    · rename_i haccepts
      exact keeps_invokeWith K haccepting none caller (hk _ haccepts)
    · exact K.fail rfl w
  | lambda params body scope =>
    refine K.next (keeps_count K.toLawful fun _ => rfl) fun w₁ h₁ _ => ?_
    refine K.next (K.make fun _ => rfl) fun w₂ h₂ inner => keeps_asBarrier K ?_ "<lambda>"
    split
    · exact K.fail rfl w₂
    · rename_i hlength
      refine K.next (K.entering (K.entersLambda (Decidable.not_not.mp hlength))) fun w₃ h₃ _ => ?_
      refine K.next (keeps_bindParams K inner _ _) fun w₄ h₄ _ => ?_
      have h := K.le_trans h₁ (K.le_trans h₂ (K.le_trans h₃ h₄))
      exact K.eval (K.code_mono h hk) inner
  | deferred expr scope => exact keeps_asBarrier K (K.eval hk scope) "<consumer>"

theorem holds_callable (w : L.World) (i : Nat) : L.holds w (heap fun h => h.callable i) L.Knows :=
  K.gets fun _ hs => K.callable hs i

theorem keeps_callCallable (caller : Nat) (args : List Value) (callee : Nat) :
    L.Keeps (callCallable caller args callee) := by
  -- `consumer.accept` calls its first argument with the others
  induction args generalizing callee with
  | nil =>
    intro w
    rw [callCallable_eq]
    refine K.bind (holds_callable K w callee) fun w₁ _ k hk => ?_
    exact keeps_applyCallable K (K.fail rfl) caller [] hk
  | cons v vs ih =>
    intro w
    rw [callCallable_eq]
    refine K.bind (holds_callable K w callee) fun w₁ _ k hk => ?_
    refine keeps_applyCallable K ?_ caller (v :: vs) hk
    cases v with
    | callable next => exact ih next
    | _ => exact K.fail rfl

theorem keeps_accept (caller : Nat) (args : List Value) : L.Keeps (accept caller args) := by
  unfold accept
  split
  · exact keeps_callCallable K caller _ _
  · exact K.fail rfl

theorem keeps_invoke (function : Option Nat) {f : Function} {args : List Value} (caller : Nat)
    (hf : L.function w f args.length) : L.KeepsAt w (invoke function f args caller) :=
  keeps_invokeWith K (keeps_accept K caller args) function caller hf

/-! ## Call sites -/

theorem keeps_capture {k : Callable} (hcode : ∀ f, k ≠ .function f) (hk : L.Knows w k) :
    L.KeepsAt w (capture k) :=
  K.next (K.modifySession fun s => kernel_retainFrame s) fun _ h _ =>
    K.newCallable hcode (hk.mono K.toLawful h)

/-- As many arguments are evaluated as there are. -/
theorem holds_evalArgs (scope : Nat) (params : List Param) {args : List Node}
    (hargs : ∀ e ∈ args, L.code w e) :
    L.holds w (evalArgs scope params args) fun _ vs => vs.length = args.length := by
  induction args generalizing w params with
  | nil =>
    unfold evalArgs
    exact K.give rfl
  | cons e es ih =>
    have hrest : ∀ w₁, L.le w w₁ → ∀ v, True →
        L.holds w₁ (do return v :: (← evalArgs scope params.tail es))
          fun _ vs => vs.length = (e :: es).length := by
      intro w₁ h₁ v _
      have hes : ∀ e' ∈ es, L.code w₁ e' := fun e' he' =>
        K.code_mono h₁ (hargs e' (List.mem_cons_of_mem e he'))
      refine K.bind (ih params.tail hes) fun _ _ vs hvs => K.give ?_
      rw [List.length_cons, List.length_cons, hvs]
    -- an argument is captured or evaluated, and the others are evaluated after it either way
    have he := hargs e List.mem_cons_self
    unfold evalArgs
    dsimp only
    split
    · exact K.bind (keeps_capture K (fun f h => by cases h) he) hrest
    · exact K.bind (K.eval he scope) hrest

/-- A function is called with the number of arguments for which its site was resolved. -/
theorem keeps_applyCallee (slot : Nat) {f : Function} {args : List Node} (scope : Nat) (tail : Bool)
    (hf : L.function w f args.length) (hargs : ∀ e ∈ args, L.code w e) :
    L.KeepsAt w (applyCallee slot f args scope tail) := by
  refine K.bind (holds_evalArgs K scope f.params hargs) fun w₁ h₁ vs hvs => ?_
  have hf₁ : L.function w₁ f vs.length := hvs.symm ▸ K.function_mono h₁ hf
  dsimp only
  split
  · refine K.next (K.modifySession fun s => kernel_releaseFrame s) fun w₂ h₂ _ => ?_
    exact keeps_invoke K (some slot) scope (K.function_mono h₂ hf₁)
  · exact keeps_invoke K (some slot) scope hf₁

/-- A call whose site has been resolved. -/
theorem keeps_resolved {site : Nat} {name : String} {args : List Node}
    (hcall : L.code w (.call site name args)) (scope : Nat) (tail : Bool) :
    L.KeepsAt w (resolveCall site name args.length >>= fun callee =>
      applyCallee callee.1 callee.2 args scope tail) := by
  refine K.bind (K.resolveCall hcall) fun w₁ h₁ callee hf => ?_
  refine keeps_applyCallee K callee.1 scope tail hf fun e he => ?_
  exact K.code_mono h₁ (K.part hcall he)

theorem keeps_evalMethodCall {target : Node} {method : String} {args : List Node} (scope : Nat)
    (hcall : L.code w (.methodCall target method args)) :
    L.KeepsAt w (evalMethodCall target method args scope) := by
  have htarget : L.code w target := K.part hcall List.mem_cons_self
  refine K.bind (K.eval htarget scope) fun w₁ h₁ v _ => ?_
  split
  · rename_i i
    refine K.bind (holds_findMethod K.toLawful w₁ i method args.length) fun w₂ h₂ m hm => ?_
    have hargs : ∀ e ∈ args, L.code w₂ e := fun e he =>
      K.code_mono (K.le_trans h₁ h₂) (K.part hcall (List.mem_cons_of_mem target he))
    refine K.bind (holds_evalArgs K scope m.params hargs) fun w₃ h₃ vs hvs => ?_
    exact keeps_callMethod K i (hvs.symm ▸ K.routine_mono h₃ hm)
  · exact K.seq (K.heap _) (fun _ => K.fail rfl) w₁

end Logic
end TreeScript
