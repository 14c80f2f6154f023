import TreeScript.Proofs.Constructs

/-
# Hooks and operators raise no jump

Wherever a class is asked (for a conversion, an operator, an element, a copy), its method runs inside of a
barrier, and what stands around it reads, makes and writes, or fails.  So no jump leaves a hook, an
operator or an access to an element, whatever the evaluator makes of the nodes inside.
-/

namespace TreeScript

namespace Exec

/-! ## Steps -/

section
variable {α β : Type}

theorem jumpless_raise {g : Signal} (hg : g.isJump = false) : Jumpless (raise g : Exec α) := by
  intro ev s g' h
  cases h
  exact hg

theorem jumpless_fail (cause : ErrorCause) : Jumpless (fail cause : Exec α) := jumpless_raise rfl

theorem jumpless_halt (k : Halt) : Jumpless (halt k : Exec α) := by
  intro ev s g h
  cases h

theorem jumpless_ofExcept (r : Except EvalError α) : Jumpless (ofExcept r) := by
  cases r with
  | ok a => exact jumpless_pure a
  | error e => exact jumpless_raise rfl

theorem jumpless_ofChecked (r : Checked α) : Jumpless (ofChecked r) := by
  rcases r with (e | k) | a
  · exact jumpless_raise rfl
  · exact jumpless_halt k
  · exact jumpless_pure a

theorem jumpless_heap (f : Heap → α) : Jumpless (heap f) := jumpless_gets fun s => f s.heap

theorem jumpless_session (f : Session → α) : Jumpless (session f) := jumpless_gets fun s => f s.session

theorem jumpless_fuel : Jumpless fuel := by
  intro ev s g h
  cases h

theorem jumpless_modifyHeap (f : Heap → Heap) : Jumpless (modifyHeap f) := by
  intro ev s g h
  cases h

theorem jumpless_modifySession (f : Session → Session) : Jumpless (modifySession f) := by
  intro ev s g h
  cases h

theorem jumpless_makeChecked (f : Heap → Checked (α × Heap)) : Jumpless (makeChecked f) :=
  (jumpless_heap f).bind fun r => (jumpless_ofChecked r).bind fun _ =>
    (jumpless_modifyHeap _).bind fun _ => jumpless_pure _

/-! ## Putting evaluations together -/

theorem Jumpless.mapM {γ : Type} {g : γ → Exec α} (hg : ∀ a, Jumpless (g a)) (items : List γ) :
    Jumpless (items.mapM g) := by
  induction items with
  | nil => exact jumpless_pure []
  | cons a items ih =>
    rw [List.mapM_cons]
    exact (hg a).bind fun b => ih.bind fun bs => jumpless_pure (b :: bs)

/-- Native code may turn failures into others. -/
theorem Jumpless.asNative {x : Exec α} (hx : Jumpless x) : Jumpless (asNative x) := by
  intro ev s g h
  have hxs := hx ev s
  change hostFailed (x ev s).1 = .signal g at h
  rcases hr : (x ev s).1 with a | k | k <;> rw [hr] at h hxs
  · cases h
  · cases k with
    | error e =>
      cases h
      rfl
    | _ =>
      cases h
      exact hxs _ rfl
  · cases h

theorem Jumpless.holding {x : Exec α} (hx : Jumpless x) (container : Value) :
    Jumpless (holding container x) :=
  fun ev s g h => hx ev (s.withHeld (container :: s.held)) g h

end

/-! ## Methods -/

/-- No jump leaves a conversion. -/
def JumplessConversion (convert : Value → TypeKind → Exec Value) : Prop := ∀ v ty, Jumpless (convert v ty)

theorem JumplessConversion.convertArgs {convert : Value → TypeKind → Exec Value}
    (h : JumplessConversion convert) (params : List Param) (args : List Value) :
    Jumpless (convertArgsWith convert params args) := by
  induction params generalizing args with
  | nil => exact jumpless_pure args
  | cons p ps ih =>
    cases args with
    | nil => exact jumpless_pure []
    | cons v vs => exact (h v p.type).bind fun v => (ih vs).bind fun vs => jumpless_pure (v :: vs)

/-- A method gives what its barrier gives, or a coroutine. -/
theorem JumplessConversion.callMethod {convert : Value → TypeKind → Exec Value}
    (h : JumplessConversion convert) (i : Nat) (m : Routine) (args : List Value) :
    Jumpless (callMethodWith convert i m args) := by
  refine (jumpless_modifySession _).bind fun _ => (jumpless_make _).bind fun scope => ?_
  cases m.body with
  | native action => exact jumpless_asBarrier _ _
  | script body => exact jumpless_asBarrier _ _
  | coroutine body => exact (h.convertArgs m.params args).bind fun vs => jumpless_make _

/-! ## Asking the class -/

theorem jumpless_checkInstance (v : Value) (cls : String) : Jumpless (checkInstance v cls) := by
  refine (jumpless_heap _).bind fun b => ?_
  cases b with
  | true => exact jumpless_pure v
  | false => exact (jumpless_heap _).bind fun _ => jumpless_fail _

theorem jumpless_convertWord : JumplessConversion convertWord := by
  intro v ty
  unfold convertWord
  split
  · exact jumpless_pure v
  · split
    · exact jumpless_checkInstance v _
    · exact jumpless_makeChecked _

theorem jumpless_askCast (i : Nat) (target : String) : Jumpless (askCast i target) := by
  refine (jumpless_heap _).bind fun m => ?_
  cases m with
  | some m => exact (jumpless_convertWord.callMethod i m _).bind fun w => jumpless_pure (some w)
  | none => exact jumpless_pure none

theorem jumpless_toBool (v : Value) : Jumpless (toBool v) := by
  refine (jumpless_heap _).bind fun b => ?_
  cases b with
  | some b => exact jumpless_pure b
  | none =>
    cases v with
    | object i =>
      refine (jumpless_askCast i "bool").bind fun w => ?_
      cases w with
      | some w => exact jumpless_heap _
      | none => exact (jumpless_heap _).bind fun _ => jumpless_fail _
    | _ => exact jumpless_pure true

theorem jumpless_objectText (i : Nat) : Jumpless (objectText i) := by
  refine (jumpless_askCast i "string").bind fun w => ?_
  cases w with
  | some w => exact (jumpless_heap _).bind fun r => jumpless_ofChecked r
  | none => exact jumpless_heap _

theorem jumpless_stringifyTo (depth : Nat) (v : Value) (nested : Bool) :
    Jumpless (stringifyTo depth v nested) := by
  induction depth generalizing v nested with
  | zero => exact jumpless_halt _
  | succ depth ih =>
    refine (jumpless_heap _).bind fun shape => ?_
    cases shape with
    | text s => exact jumpless_pure s
    | object i => exact jumpless_objectText i
    | same w => exact ih w nested
    | row separator inner items =>
      refine Jumpless.holding ?_ v
      exact (Jumpless.mapM (fun w => ih w inner) items).bind fun texts => jumpless_pure _
    | entries es =>
      refine Jumpless.holding ?_ v
      refine (Jumpless.mapM (fun e => ?_) es).bind fun texts => jumpless_pure _
      exact (ih e.1 false).bind fun key => (ih e.2 true).bind fun value => jumpless_pure _

theorem jumpless_stringify (v : Value) : Jumpless (stringify v) :=
  jumpless_fuel.bind fun depth => jumpless_stringifyTo depth v false

/-! ## Conversion -/

theorem jumpless_objectToNumber (i : Nat) (ty : TypeKind) : Jumpless (objectToNumber i ty) := by
  have hfailure : Jumpless (do
      fail (.invalidCast (← heap fun h => (h.classOf i).name) ty.text) : Exec Value) :=
    (jumpless_heap _).bind fun _ => jumpless_fail _
  refine (jumpless_askCast i ty.text).bind fun w => ?_
  rcases w with _ | w
  · exact hfailure
  · cases w with
    | object _ => exact hfailure
    | _ => exact jumpless_makeChecked _

theorem jumpless_castValue (v : Value) (ty : TypeKind) : Jumpless (castValue v ty) := by
  unfold castValue
  split
  · exact jumpless_pure v
  · split
    · exact (jumpless_toBool v).bind fun b => jumpless_pure _
    · split
      · exact jumpless_pure _
      · exact (jumpless_stringify v).bind fun text => jumpless_pure _
    · exact jumpless_checkInstance v _
    · split
      · split
        · exact jumpless_objectToNumber _ _
        · exact jumpless_makeChecked _
      · exact jumpless_makeChecked _

theorem jumpless_coerce : JumplessConversion coerce := by
  intro v ty
  unfold coerce
  split
  · exact jumpless_pure v
  · exact jumpless_castValue v ty

theorem jumpless_callMethod (i : Nat) (m : Routine) (args : List Value) : Jumpless (callMethod i m args) :=
  jumpless_coerce.callMethod i m args

theorem jumpless_findMethod (i : Nat) (name : String) (argc : Nat) : Jumpless (findMethod i name argc) := by
  refine (jumpless_heap _).bind fun cls => ?_
  cases cls.method? name argc with
  | some m => exact jumpless_pure m
  | none => exact jumpless_fail _

theorem jumpless_callNamedMethod (i : Nat) (name : String) (args : List Value) :
    Jumpless (callNamedMethod i name args) :=
  (jumpless_findMethod i name args.length).bind fun m => jumpless_callMethod i m args

/-! ## Elements -/

/-- A method that receives keys. -/
theorem jumpless_callHook (i : Nat) (hook : String) (keys rest : List Value) :
    Jumpless (do callNamedMethod i hook ((← newList keys) :: rest)) :=
  (jumpless_make _).bind fun list => jumpless_callNamedMethod i hook (list :: rest)

theorem jumpless_walk (lenient single : Bool) (v : Value) (keys : List Value) :
    Jumpless (walk lenient single v keys) := by
  induction keys generalizing v with
  | nil =>
    rw [walk.eq_def]
    exact jumpless_pure v
  | cons key rest ih =>
    have hplain : Jumpless (do
        let w ← ofChecked (← heap fun h => element h v key (rest.isEmpty && lenient) single)
        walk lenient single w rest) :=
      (jumpless_heap _).bind fun r => (jumpless_ofChecked r).bind fun w => ih w
    rw [walk.eq_def]
    cases v with
    | object i => exact jumpless_callHook i _ _ []
    | _ => exact hplain

theorem jumpless_indexGet (v : Value) (keys : List Value) : Jumpless (indexGet v keys) :=
  jumpless_walk true _ v keys

theorem jumpless_setElement (container key v : Value) : Jumpless (setElement container key v) := by
  have hwrite : ∀ f : Heap → Heap, Jumpless (do
      if ← isHeld container then halt .heldContainer
      else
        modifyHeap f
        return v) := by
    intro f
    refine (jumpless_gets _).bind fun isHeld => ?_
    cases isHeld with
    | true => exact jumpless_halt _
    | false => exact (jumpless_modifyHeap f).bind fun _ => jumpless_pure v
  cases container with
  | list i | array i =>
    exact (jumpless_heap _).bind fun r => (jumpless_ofExcept r).bind fun place => hwrite _
  | map i => exact hwrite _
  | object i => exact jumpless_callHook i _ [key] [v]
  | _ => exact (jumpless_heap _).bind fun _ => jumpless_fail _

theorem jumpless_indexSet (v : Value) (keys : List Value) (new : Value) : Jumpless (indexSet v keys new) := by
  unfold indexSet
  split
  · exact jumpless_callHook _ _ keys [new]
  · split
    · exact jumpless_fail _
    · exact (jumpless_walk false _ v _).bind fun container => jumpless_setElement container _ new

/-! ## Operators -/

theorem jumpless_plainBinary (op : BinaryOp) (l r : Value) : Jumpless (plainBinary op l r) := by
  unfold plainBinary
  split
  · exact (jumpless_stringify l).bind fun left => (jumpless_stringify r).bind fun right => jumpless_pure _
  · exact (jumpless_heap _).bind fun result => jumpless_ofChecked result

theorem jumpless_asText (v : Value) : Jumpless (asText v) := by
  cases v with
  | object i => exact (jumpless_objectText i).bind fun text => jumpless_pure _
  | _ => exact jumpless_pure _

theorem jumpless_textBinary (op : BinaryOp) (l r : Value) : Jumpless (textBinary op l r) := by
  unfold textBinary
  split
  · exact jumpless_pure _
  · exact (jumpless_asText l).bind fun l => (jumpless_asText r).bind fun r => jumpless_plainBinary op l r

theorem jumpless_objectBinary (op : BinaryOp) (i : Nat) (r : Value) : Jumpless (objectBinary op i r) := by
  refine (jumpless_heap _).bind fun cls => ?_
  dsimp only
  cases cls.method? op.symbol 1 with
  | some m => exact jumpless_callMethod i m [r]
  | none =>
    dsimp only
    split
    · cases cls.method? BinaryOp.eq.symbol 1 with
      | some m =>
        refine (jumpless_callMethod i m [r]).bind fun w => (jumpless_toBool w).bind fun equal => ?_
        exact jumpless_pure _
      | none => exact jumpless_pure _
    · exact (jumpless_heap _).bind fun _ => jumpless_fail _

theorem jumpless_applyBinary (op : BinaryOp) (l r : Value) : Jumpless (applyBinary op l r) := by
  unfold applyBinary
  split
  · exact jumpless_textBinary op _ _
  · exact jumpless_textBinary op _ _
  · exact jumpless_objectBinary op _ _
  · exact jumpless_plainBinary op l r

theorem jumpless_applyUnary (op : UnaryOp) (v : Value) : Jumpless (applyUnary op v) := by
  have hplain : Jumpless (do ofExcept (← heap fun h => h.evaluateUnary op v) : Exec Value) :=
    (jumpless_heap _).bind fun r => jumpless_ofExcept r
  unfold applyUnary
  cases v with
  | object i =>
    refine (jumpless_heap _).bind fun cls => ?_
    cases cls.method? op.symbol 0 with
    | some m => exact jumpless_callMethod i m []
    | none =>
      dsimp only
      split
      · exact (jumpless_toBool _).bind fun b => jumpless_pure _
      · exact jumpless_fail _
  | _ => exact hplain

/-! ## Copies and defaults -/

theorem jumpless_cloneValue (v : Value) : Jumpless (cloneValue v) := by
  refine (jumpless_heap _).bind fun copy => ?_
  cases copy with
  | some p => exact (jumpless_modifyHeap _).bind fun _ => jumpless_pure _
  | none =>
    cases v with
    | object i => exact jumpless_callNamedMethod i "clone" []
    | _ => exact jumpless_pure _

theorem jumpless_fieldDefault (f : FieldDecl Node) (scope : Nat) : Jumpless (fieldDefault f scope) := by
  unfold fieldDefault
  split
  · exact jumpless_settle _
  · exact jumpless_make _

theorem jumpless_exceptionFrom (e : EvalError) : Jumpless (exceptionFrom e) := by
  refine (jumpless_session _).bind fun cls => ?_
  cases cls with
  | some cls => exact jumpless_settle _
  | none => exact jumpless_raise rfl

end Exec
end TreeScript
