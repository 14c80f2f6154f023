import TreeScript.Proofs.Simulation.Primitives

/-
# Methods and conversions, side by side

The two sides agree on binding parameters, on native actions, on methods, and on the conversions that
ask classes.  A conversion of arguments is a parameter of methods, and so it is here: `Converts` says
that the two sides agree on one, `convertWord` is the first that does, and `coerce` the second.
-/

namespace TreeScript
namespace Simulation

open Exec

variable {S : Simulation} {ev ev' : Evaluator} {w : S.World}

/-- The two sides agree on a conversion, and what it gives suits the type. -/
def Converts (S : Simulation) (ev ev' : Evaluator) (convert : Value → TypeKind → Exec Value) : Prop :=
  ∀ w v ty, S.AgreesOn ev ev' w (fun w' a => S.suits w' ty a) (convert v ty) (convert v ty)

variable (L : S.Lawful)
include L

/-! ## Parameters -/

theorem agrees_bindParamsWith {convert : Value → TypeKind → Exec Value}
    (hconvert : S.Converts ev ev' convert) {c c' : Nat} (hc : S.scope w c c') (ps : List Param)
    (args : List Value) :
    S.Agrees ev ev' w (bindParamsWith convert c ps args) (bindParamsWith convert c' ps args) := by
  induction ps generalizing w args with
  | nil => exact .pure L.toOrdered ()
  | cons p ps ih =>
    cases args with
    | nil => exact .pure L.toOrdered ()
    | cons v vs =>
      refine .bindOn L.toOrdered (hconvert w v p.type) fun w₁ v h₁ hv => ?_
      have hc₁ := L.scope_mono h₁ hc
      refine .bind L.toOrdered (.declare L hc₁ p.name hv) fun w₂ _ h₂ => ?_
      exact ih (L.scope_mono h₂ hc₁) vs

theorem agrees_convertArgsWith {convert : Value → TypeKind → Exec Value}
    (hconvert : S.Converts ev ev' convert) (ps : List Param) (args : List Value) :
    S.AgreesOn ev ev' w (fun w' vs => S.ArgsSuit w' ps vs) (convertArgsWith convert ps args)
      (convertArgsWith convert ps args) := by
  induction ps generalizing w args with
  | nil => exact .give L.toOrdered ⟨rfl, fun _ h => by cases h⟩
  | cons p ps ih =>
    cases args with
    | nil => exact .give L.toOrdered ⟨rfl, fun _ h => by cases h⟩
    | cons v vs =>
      refine .bindOn L.toOrdered (hconvert w v p.type) fun w₁ v _ hv => ?_
      refine .bindOn L.toOrdered (ih vs) fun w₂ vs h₂ hvs => .give L.toOrdered ⟨rfl, ?_⟩
      intro q hq
      rcases List.mem_cons.mp hq with rfl | hq
      · exact L.suits_mono h₂ hv
      · exact hvs q hq

/-! ## Native actions -/

theorem agrees_newList (items : List Value) :
    S.Agrees ev ev' w (newList items) (newList items) :=
  .make L (Heap.makes_newList items)

theorem agrees_runNative (R : S.Ready ev ev') {action : NativeAction} {c c' : Nat}
    (hc : S.scope w c c') (hfits : ∀ node, action = .evaluate node → S.fits w node)
    (args : List Value) :
    S.Agrees ev ev' w (runNative action c args) (runNative action c' args) := by
  cases action with
  | constant v => exact .pure L.toOrdered v
  | echo => exact agrees_newList L args
  | fail message => exact .fail L.toOrdered _
  | failCustom message => exact .error L.toOrdered _
  | evaluate node => exact R.eval (hfits node rfl) hc
  | raiseBreak =>
    refine .bind L.toOrdered (agrees_newList L args) fun w₁ v _ => ?_
    exact .raise L.toOrdered fun _ h => .breakLoop v h
  | raiseReturn =>
    refine .bind L.toOrdered (agrees_newList L args) fun w₁ v _ => ?_
    exact .raise L.toOrdered fun _ h => .returnValue v (L.unwound_of_le h)
  | raiseContinue => exact .raise L.toOrdered fun _ h => .continueLoop h
  | exceptionMessage => exact .read L hc "message"

/-! ## Methods -/

/-- The scope of a method is inside the scope of the fields. -/
theorem run_methodScope {i : Nat} (hi : S.Known w i) :
    S.Run ev ev' w (fun w' a b => S.pinned w' a b) (methodScope i) (methodScope i) := by
  intro s s' hs
  have hfields := L.fields i hs
  have hcls : (s.heap.object i).cls.name = (s'.heap.object i).cls.name :=
    congrArg ClassDef.name ((L.alike hs).classOf i)
  obtain ⟨cls, hsuits⟩ := hi
  have hrun := @Run.newScopeWith S ev ev' w L _ _ (L.scope_of_pinned hfields) "this"
    (.object (s.heap.object i).cls.name) (.object i) (L.suits_this hs hsuits)
  have hends := (hrun.weaken fun _ _ _ h => h.2 hfields) s s' hs
  have heq : methodScope i ev' s' = make (fun h =>
      ((h.newScope (s'.heap.object i).fields).1,
        (h.newScope (s'.heap.object i).fields).2.declare (h.newScope (s'.heap.object i).fields).1
          "this" (.object (s.heap.object i).cls.name) (.object i))) ev' s' := by
    rw [hcls]
    rfl
  rw [heq]
  exact hends

theorem agrees_declareAll {c c' : Nat} (hc : S.scope w c c') {ps : List Param} {args : List Value}
    (hargs : S.ArgsSuit w ps args) :
    S.Agrees ev ev' w (modifyHeap fun h => h.declareAll c ps args)
      (modifyHeap fun h => h.declareAll c' ps args) := by
  unfold Heap.declareAll
  unfold ArgsSuit at hargs
  generalize ps.zip args = pairs at hargs
  induction pairs generalizing w with
  | nil => exact .pure L.toOrdered ()
  | cons p rest ih =>
    have hp := hargs p List.mem_cons_self
    refine .bind L.toOrdered (.declare L hc p.1.name hp) fun w₁ _ h => ih (L.scope_mono h hc) ?_
    exact fun q hq => L.suits_mono h (hargs q (List.mem_cons_of_mem p hq))

theorem agrees_newCoroutine {o o' : Nat} (ho : S.pinned w o o') (name : String) {ps : List Param}
    (body : Node) {args : List Value} (hargs : S.ArgsSuit w ps args) :
    S.Agrees ev ev' w (newCoroutine name ps body args o) (newCoroutine name ps body args o') := by
  have heq : ∀ o, newCoroutine name ps body args o =
      (do
        let c ← make fun h => h.newScope o
        modifyHeap fun h => h.declareAll c ps args
        make fun h => (.coroutine h.coroutines.size, { h with
          coroutines := h.coroutines.push ⟨name, ps, args, body, o, c, .created, []⟩ })) :=
    fun _ => rfl
  rw [heq, heq]
  refine .seq L.toOrdered (.newScope L (L.scope_of_pinned ho)) fun w₁ c c' h₁ hc => ?_
  have hargs₁ := hargs.mono L.toTypingLaws h₁
  refine .bind L.toOrdered (agrees_declareAll L hc.1 hargs₁) fun w₂ _ h₂ => ?_
  intro s s' hs
  have hc₂ := L.pinned_mono (L.unwound_of_le h₂) (hc.2 ho)
  have ho₂ := L.pinned_mono (L.unwound_of_le (L.le_trans h₁ h₂)) ho
  have hargs₂ := hargs₁.mono L.toTypingLaws h₂
  refine .value (L.le_refl w₂) (L.addCoroutine name body hs ho₂ hc₂ hargs₂) ?_
  rw [(L.alike hs).coroutineCount]

theorem agrees_callMethodWith (R : S.Ready ev ev') {convert : Value → TypeKind → Exec Value}
    (hconvert : S.Converts ev ev' convert) {i : Nat} (hi : S.Known w i) (m : Routine)
    (args : List Value) :
    S.Agrees ev ev' w (callMethodWith convert i m args) (callMethodWith convert i m args) := by
  refine .bind L.toOrdered (.modifySession L fun hs => L.countMethodCall hs) fun w₁ _ h₁ => ?_
  refine .seq L.toOrdered (run_methodScope L (hi.mono L.toTypingLaws h₁)) fun w₂ c c' _ hc => ?_
  cases m.body with
  | native action =>
    refine .asBarrier L m.name fun w₃ h₃ _ => .asNative ?_
    have hc₃ := L.scope_of_pinned (L.enters_pinned h₃ hc)
    refine .bindOn L.toOrdered (agrees_convertArgsWith L hconvert m.params args) fun w₄ vs h₄ _ => ?_
    refine agrees_runNative L R (L.scope_mono h₄ hc₃) (fun node _ => ?_) vs
    exact L.fits_mono (L.unwound_of_le h₄) (L.enters_fits node h₃)
  | script body =>
    refine .asBarrier L m.name fun w₃ h₃ _ => ?_
    have hc₃ := L.scope_of_pinned (L.enters_pinned h₃ hc)
    refine .bind L.toOrdered (.entering L R m.params args) fun w₄ _ h₄ => ?_
    have hc₄ := L.scope_mono h₄ hc₃
    refine .bind L.toOrdered (agrees_bindParamsWith L hconvert hc₄ m.params args) fun w₅ _ h₅ => ?_
    have h := L.unwound_of_le (L.le_trans h₄ h₅)
    exact R.eval (L.fits_mono h (L.enters_fits body h₃)) (L.scope_mono h₅ hc₄)
  | coroutine body =>
    refine .bindOn L.toOrdered (agrees_convertArgsWith L hconvert m.params args) ?_
    intro w₃ vs h₃ hvs
    exact agrees_newCoroutine L (L.pinned_mono (L.unwound_of_le h₃) hc) m.name body hvs

/-! ## Asking the class -/

theorem agrees_typeMismatch {α : Type} (expected : String) (v : Value) :
    S.Agrees ev ev' w (do fail (.typeMismatch expected (← heap fun h => h.typeName v)) : Exec α)
      (do fail (.typeMismatch expected (← heap fun h => h.typeName v))) :=
  .bind L.toOrdered (.heap L fun A => A.typeName v) fun _ _ _ => .fail L.toOrdered _

theorem agrees_checkInstance (v : Value) (cls : String) :
    S.Agrees ev ev' w (checkInstance v cls) (checkInstance v cls) := by
  refine .bind L.toOrdered (.heap L fun A => A.isInstance cls v) fun w₁ b _ => ?_
  cases b with
  | true => exact .pure L.toOrdered v
  | false => exact agrees_typeMismatch L cls v

theorem converts_convertWord : S.Converts ev ev' convertWord := by
  intro w v ty
  refine .suiting L ?_ (gives_convertWord v ty)
  unfold convertWord
  cases ty.isUntyped with
  | true => exact .pure L.toOrdered v
  | false =>
    cases ty with
    | object cls => exact agrees_checkInstance L v cls
    | _ => exact .makeChecked L (Heap.makesChecked_cast v _)

variable (R : S.Ready ev ev')
include R

theorem agrees_askCast (i : Nat) (target : String) :
    S.Agrees ev ev' w (askCast i target) (askCast i target) := by
  refine .bindOn L.toOrdered (.method? L i "cast" 1) fun w₁ m? _ hknown => ?_
  cases m? with
  | none => exact .pure L.toOrdered none
  | some m =>
    have hi := hknown m rfl
    refine .bind L.toOrdered (agrees_callMethodWith L R (converts_convertWord L) hi m _) ?_
    exact fun w₂ v _ => .pure L.toOrdered (some v)

theorem agrees_toBool (v : Value) : S.Agrees ev ev' w (toBool v) (toBool v) := by
  refine .bind L.toOrdered (.heap L fun A => A.truthy? v) fun w₁ b _ => ?_
  cases b with
  | some b => exact .pure L.toOrdered b
  | none =>
    cases v with
    | object i =>
      refine .bind L.toOrdered (agrees_askCast L R i "bool") fun w₂ v _ => ?_
      cases v with
      | some v => exact .heap L fun A => A.truthy v
      | none =>
        refine .bind L.toOrdered (.heap L fun A => by rw [A.classOf]) fun w₃ name _ => ?_
        exact .fail L.toOrdered _
    | _ => exact .pure L.toOrdered true

theorem agrees_objectText (i : Nat) : S.Agrees ev ev' w (objectText i) (objectText i) := by
  refine .bind L.toOrdered (agrees_askCast L R i "string") fun w₁ v _ => ?_
  cases v with
  | some v =>
    refine .bind L.toOrdered (.heap L fun A => A.render v) fun w₂ r _ => ?_
    exact .ofChecked L.toOrdered r
  | none => exact .heap L fun A => A.objectLabel i

theorem agrees_stringifyTo (depth : Nat) (v : Value) (nested : Bool) :
    S.Agrees ev ev' w (stringifyTo depth v nested) (stringifyTo depth v nested) := by
  induction depth generalizing w v nested with
  | zero => exact .halt L.toOrdered .outOfFuel
  | succ depth ih =>
    refine .bind L.toOrdered (.heap L fun A => A.shape v nested) fun w₁ shape _ => ?_
    cases shape with
    | text s => exact .pure L.toOrdered s
    | object i => exact agrees_objectText L R i
    | same v => exact ih v nested
    | row separator inner items =>
      refine .holding L v (.bind L.toOrdered ?_ fun _ texts _ => .pure L.toOrdered _)
      exact .mapM L.toOrdered _ _ items fun w₂ _ item _ => ih item inner
    | entries es =>
      refine .holding L v (.bind L.toOrdered ?_ fun _ texts _ => .pure L.toOrdered _)
      refine .mapM L.toOrdered _ _ es fun w₂ _ entry _ => ?_
      refine .bind L.toOrdered (ih entry.1 false) fun w₃ key _ => ?_
      exact .bind L.toOrdered (ih entry.2 true) fun w₄ value _ => .pure L.toOrdered _

theorem agrees_stringify (v : Value) : S.Agrees ev ev' w (stringify v) (stringify v) :=
  .bind L.toOrdered (.fuel L R) fun _ depth _ => agrees_stringifyTo L R depth v false

/-! ## Conversion -/

theorem agrees_objectToNumber (i : Nat) (ty : TypeKind) :
    S.Agrees ev ev' w (objectToNumber i ty) (objectToNumber i ty) := by
  have hfailure : ∀ w, S.Agrees ev ev' w
      (do fail (.invalidCast (← heap fun h => (h.classOf i).name) ty.text) : Exec Value)
      (do fail (.invalidCast (← heap fun h => (h.classOf i).name) ty.text)) := fun w =>
    .bind L.toOrdered (.heap L fun A => by rw [A.classOf]) fun _ _ _ => .fail L.toOrdered _
  refine .bind L.toOrdered (agrees_askCast L R i ty.text) fun w₁ v _ => ?_
  cases v with
  | none => exact hfailure w₁
  | some v =>
    cases v with
    | object _ => exact hfailure w₁
    | _ => exact .makeChecked L (Heap.makesChecked_cast _ ty)

theorem agrees_castValue (v : Value) (ty : TypeKind) :
    S.Agrees ev ev' w (castValue v ty) (castValue v ty) := by
  have hcast : ∀ v ty, S.Agrees ev ev' w (makeChecked fun h => h.cast v ty)
      (makeChecked fun h => h.cast v ty) := fun v ty => .makeChecked L (Heap.makesChecked_cast v ty)
  unfold castValue
  cases v.isNull with
  | true => exact .pure L.toOrdered v
  | false =>
    cases ty with
    | bool => exact .bind L.toOrdered (agrees_toBool L R v) fun _ b _ => .pure L.toOrdered _
    | string =>
      cases v with
      | str s => exact .pure L.toOrdered _
      | _ => exact .bind L.toOrdered (agrees_stringify L R _) fun _ s _ => .pure L.toOrdered _
    | object cls => exact agrees_checkInstance L v cls
    | _ =>
      cases v with
      | object i =>
        first
        | exact agrees_objectToNumber L R i _
        | exact hcast _ _
      | _ => exact hcast _ _

theorem converts_coerce : S.Converts ev ev' coerce := by
  intro w v ty
  refine .suiting L ?_ (gives_coerce v ty)
  unfold coerce
  cases ty.isUntyped with
  | true => exact .pure L.toOrdered v
  | false => exact agrees_castValue L R v ty

theorem agrees_bindParams {c c' : Nat} (hc : S.scope w c c') (ps : List Param)
    (args : List Value) : S.Agrees ev ev' w (bindParams c ps args) (bindParams c' ps args) :=
  agrees_bindParamsWith L (converts_coerce L R) hc ps args

theorem agrees_convertArgs (ps : List Param) (args : List Value) :
    S.AgreesOn ev ev' w (fun w' vs => S.ArgsSuit w' ps vs) (convertArgs ps args)
      (convertArgs ps args) :=
  agrees_convertArgsWith L (converts_coerce L R) ps args

theorem agrees_callMethod {i : Nat} (hi : S.Known w i) (m : Routine) (args : List Value) :
    S.Agrees ev ev' w (callMethod i m args) (callMethod i m args) :=
  agrees_callMethodWith L R (converts_coerce L R) hi m args

omit R in
/-- An object that has a method is known. -/
theorem agrees_findMethod (i : Nat) (name : String) (argc : Nat) :
    S.AgreesOn ev ev' w (fun w' _ => S.Known w' i) (findMethod i name argc)
      (findMethod i name argc) := by
  refine .bindOn L.toOrdered (.classOf L i) fun w₁ cls _ hknown => ?_
  cases hm : cls.method? name argc with
  | some m => exact .give L.toOrdered ⟨rfl, hknown name argc m hm⟩
  | none => exact .fail L.toOrdered _

theorem agrees_callNamedMethod (i : Nat) (name : String) (args : List Value) :
    S.Agrees ev ev' w (callNamedMethod i name args) (callNamedMethod i name args) :=
  .bindOn L.toOrdered (agrees_findMethod L i name args.length) fun _ m _ hi =>
    agrees_callMethod L R hi m args

end Simulation
end TreeScript
