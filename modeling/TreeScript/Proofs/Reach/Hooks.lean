import TreeScript.Eval.Node
import TreeScript.Proofs.Reach.Within

/-
# Methods, conversions and operators, within reach

Where the nodes inside a construct are evaluated within reach, the construct stays within reach.  Methods and
conversions begin bodies of their own, and ask nothing of the one around them (`inside`).
-/

namespace TreeScript

open Exec

/-- The nodes inside a construct are evaluated within reach. -/
structure Reach.Ready (r : Reach) (ev : Evaluator) : Prop where
  eval : ∀ (e : Node) {c : Nat}, r.scope c → Within r ev True r.Has (eval e c)
  entering : ∀ (params : List Param) (args : List Value), Within r ev True (fun _ => True) (entering params args)

/-- Values are converted to values within reach. -/
def Reach.Converts (r : Reach) (ev : Evaluator) (convert : Value → TypeKind → Exec Value) : Prop :=
  ∀ inside {v} ty, r.Has v → Within r ev inside r.Has (convert v ty)

theorem Reach.HasClass.method {r : Reach} {c : ClassDef} (hc : r.HasClass c) {name : String} {argc : Nat}
    {m : Routine} (hm : c.method? name argc = some m) : r.HasRoutine m := by
  rcases Option.or_eq_some_iff.mp hm with hm | ⟨-, hm⟩ <;> exact hc.find? hm

namespace Exec

variable {r : Reach} {ev : Evaluator} {inside : Prop} {convert : Value → TypeKind → Exec Value}
variable {v : Value} {args : List Value} {c i : Nat}

/-! ## Parameters -/

theorem within_bindParamsWith (hconvert : r.Converts ev convert) (hc : r.scope c) (params : List Param)
    (hargs : ∀ v ∈ args, r.Has v) : Within r ev inside (fun _ => True) (bindParamsWith convert c params args) := by
  induction params generalizing args with
  | nil =>
    unfold bindParamsWith
    exact .give trivial
  | cons p ps ih =>
    cases args with
    | nil => exact .give trivial
    | cons v vs =>
      refine (hconvert inside p.type (hargs v List.mem_cons_self)).bind fun w hw => ?_
      refine (Within.modifyHeap fun h H => H.declare hc p.type hw).next fun _ => ?_
      exact ih fun v' hv' => hargs v' (List.mem_cons_of_mem v hv')

theorem within_convertArgsWith (hconvert : r.Converts ev convert) (params : List Param)
    (hargs : ∀ v ∈ args, r.Has v) :
    Within r ev inside (fun vs => ∀ v ∈ vs, r.Has v) (convertArgsWith convert params args) := by
  induction params generalizing args with
  | nil =>
    unfold convertArgsWith
    exact .give hargs
  | cons p ps ih =>
    cases args with
    | nil => exact .give nofun
    | cons v vs =>
      refine (hconvert inside p.type (hargs v List.mem_cons_self)).bind fun w hw => ?_
      refine (ih fun v' hv' => hargs v' (List.mem_cons_of_mem v hv')).bind fun ws hws => .give ?_
      exact List.forall_mem_cons.mpr ⟨hw, hws⟩

/-! ## Methods -/

theorem within_newList (hargs : ∀ v ∈ args, r.Has v) : Within r ev inside r.Has (newList args) :=
  .make fun _ H => H.newList hargs

theorem within_typeMismatch {α : Type} {Q : α → Prop} (expected : String) (v : Value) :
    Within r ev inside Q (do fail (.typeMismatch expected (← heap fun h => h.typeName v))) :=
  (Within.plain _).next fun _ => .fail _

theorem within_runNative (R : r.Ready ev) {m : Routine} {action : NativeAction} (hm : r.HasRoutine m)
    (hbody : m.body = .native action) (hc : r.scope c) (hargs : ∀ v ∈ args, r.Has v) :
    Within r ev True r.Has (runNative action c args) := by
  unfold runNative
  cases action with
  | constant v => exact .give (hm v hbody)
  | echo => exact within_newList hargs
  | fail message => exact .fail _
  | failCustom message => exact .raise trivial
  | evaluate node => exact R.eval node hc
  | raiseBreak | raiseReturn => exact (within_newList hargs).bind fun w hw => .raise hw
  | raiseContinue => exact .raise trivial
  | exceptionMessage => exact .heap fun h H => H.read hc

theorem within_methodScope (hi : r.object i) : Within r ev inside r.scope (methodScope i) := by
  refine .make fun h H => ⟨H.scope_size, ?_⟩
  exact (H.newScope (H.fields hi)).declare H.scope_size _ hi

theorem within_newCoroutine (name : String) (params : List Param) (body : Node) (hargs : ∀ v ∈ args, r.Has v)
    (hc : r.scope c) : Within r ev inside r.Has (newCoroutine name params body args c) :=
  .make fun _ H => H.newCoroutine name params body hargs hc

theorem within_callMethodWith (R : r.Ready ev) (hconvert : r.Converts ev convert) (hi : r.object i)
    {m : Routine} (hm : r.HasRoutine m) (hargs : ∀ v ∈ args, r.Has v) :
    Within r ev inside r.Has (callMethodWith convert i m args) := by
  refine (Within.meter _).next fun _ => (within_methodScope hi).bind fun scope hscope => ?_
  have hconverted {inside : Prop} := @within_convertArgsWith r ev inside convert args hconvert m.params hargs
  split
  -- a coroutine that is made runs no code yet, so it needs no body of its own
  · rename_i action hbody
    exact (hconverted.bind fun vs hvs => within_runNative R hm hbody hscope hvs).asNative.asBarrier m.name
  · refine Within.asBarrier ((R.entering m.params args).next fun _ => ?_) m.name
    exact (within_bindParamsWith hconvert hscope m.params hargs).next fun _ => R.eval _ hscope
  · exact hconverted.bind fun vs hvs => within_newCoroutine m.name m.params _ hvs hscope

/-! ## Asking the class -/

theorem within_checkInstance (hv : r.Has v) (cls : String) : Within r ev inside r.Has (checkInstance v cls) := by
  refine (Within.plain _).next fun b => ?_
  split
  · exact .give hv
  · exact within_typeMismatch cls v

theorem within_cast (hv : r.Has v) (ty : TypeKind) :
    Within r ev inside r.Has (makeChecked fun h => h.cast v ty) :=
  .makeChecked fun _ H _ _ hw => H.cast hv hw

theorem converts_convertWord : r.Converts ev convertWord := by
  intro inside v ty hv
  unfold convertWord
  split
  · exact .give hv
  · split
    · exact within_checkInstance hv _
    · exact within_cast hv _

variable (R : r.Ready ev)
include R

theorem within_askCast (hi : r.object i) (target : String) :
    Within r ev inside (fun w => ∀ v ∈ w, r.Has v) (askCast i target) := by
  have hread : Within r ev inside (fun m => ∀ m' ∈ m, r.HasRoutine m')
      (heap fun h => (h.classOf i).method? "cast" 1) :=
    .heap fun h H m hm => (H.cls hi).method hm
  refine hread.bind fun m hm => ?_
  cases m with
  | none => exact .give nofun
  | some m =>
    have hargs : ∀ v ∈ [Value.str target], r.Has v := List.forall_mem_singleton.mpr trivial
    refine (within_callMethodWith R converts_convertWord hi (hm m rfl) hargs).bind fun w hw => .give ?_
    rintro _ ⟨⟩
    exact hw

theorem within_toBool (hv : r.Has v) : Within r ev inside (fun _ => True) (toBool v) := by
  refine (Within.plain _).next fun b => ?_
  split
  · exact .give trivial
  · split
    · refine (within_askCast R hv _).next fun w => ?_
      split
      · exact .plain _
      · exact (Within.plain _).next fun _ => .fail _
    · exact .give trivial

theorem within_objectText (hi : r.object i) : Within r ev inside (fun _ => True) (objectText i) := by
  refine (within_askCast R hi _).next fun w => ?_
  split
  · exact (Within.plain _).next fun _ => .ofChecked fun _ _ => trivial
  · exact .plain _

end Exec

/-! ## Texts -/

/-- What a text is made of is within reach. -/
def Reach.HasShape (r : Reach) : TextShape → Prop
  | .text _ => True
  | .object i => r.object i
  | .same v => r.Has v
  | .row _ _ items => ∀ v ∈ items, r.Has v
  | .entries es => ∀ e ∈ es, r.Has e.1 ∧ r.Has e.2

theorem Heap.Confined.shape {r : Reach} {h : Heap} {v : Value} (H : h.Confined r) (hv : r.Has v) (nested : Bool) :
    r.HasShape (h.shape v nested) := by
  cases v with
  | list i | array i => exact H.toList hv
  | map i => exact fun e he => ⟨(H.maps.ok i hv).keys e he, (H.maps.ok i hv).values e he⟩
  | object i => exact hv
  | ref i => exact H.value hv
  | _ => trivial

namespace Exec

variable {r : Reach} {ev : Evaluator} {inside : Prop} {v : Value} {args : List Value} {c i : Nat}
variable (R : r.Ready ev)
include R

theorem within_stringifyTo (depth : Nat) (hv : r.Has v) (nested : Bool) :
    Within r ev inside (fun _ => True) (stringifyTo depth v nested) := by
  induction depth generalizing v nested with
  | zero =>
    unfold stringifyTo
    exact .halt _
  | succ depth ih =>
    unfold stringifyTo
    refine (Within.heap fun h H => H.shape hv nested).bind fun shape hshape => ?_
    -- only an object runs code for its text; it is within reach as the value is
    cases shape with
    | text s => exact .give trivial
    | object i => exact within_objectText R hshape
    | same w => exact ih hshape nested
    | row separator inner items =>
      exact .holding v ((Within.mapM fun w hw => ih (hshape w hw) inner).next fun _ => .give trivial)
    | entries es =>
      have hentry : ∀ e ∈ es, Within r ev inside (fun _ => True) (do
          let key ← stringifyTo depth e.1 false
          let value ← stringifyTo depth e.2 true
          return Heap.entryText key value) := fun e he =>
        (ih (hshape e he).1 false).next fun _ => (ih (hshape e he).2 true).next fun _ => .give trivial
      exact .holding v ((Within.mapM hentry).next fun _ => .give trivial)

theorem within_stringify (hv : r.Has v) : Within r ev inside (fun _ => True) (stringify v) := by
  have hfuel : Within r ev inside (fun _ => True) fuel := fun s hs _ => ⟨⟨trivial, hs, .refl s⟩, fun _ _ => rfl⟩
  exact hfuel.next fun depth => within_stringifyTo R depth hv false

/-! ## Conversion -/

theorem within_objectToNumber (hi : r.object i) (ty : TypeKind) :
    Within r ev inside r.Has (objectToNumber i ty) := by
  have hfailure : Within r ev inside r.Has
      (do fail (.invalidCast (← heap fun h => (h.classOf i).name) ty.text)) :=
    (Within.plain _).next fun _ => .fail _
  refine (within_askCast R hi _).bind fun w hw => ?_
  split
  · exact hfailure
  · exact within_cast (hw _ rfl) ty
  · exact hfailure

theorem within_castValue (hv : r.Has v) (ty : TypeKind) : Within r ev inside r.Has (castValue v ty) := by
  unfold castValue
  split
  · exact .give hv
  · split
    · exact (within_toBool R hv).next fun _ => .give trivial
    · split
      · exact .give trivial
      · exact (within_stringify R hv).next fun _ => .give trivial
    · exact within_checkInstance hv _
    · split
      · split
        · exact within_objectToNumber R hv _
        · exact within_cast hv _
      · exact within_cast hv _

theorem converts_coerce : r.Converts ev coerce := by
  intro inside v ty hv
  unfold coerce
  split
  · exact .give hv
  · exact within_castValue R hv ty

theorem within_coerce (hv : r.Has v) (ty : TypeKind) : Within r ev inside r.Has (coerce v ty) :=
  converts_coerce R inside ty hv

theorem within_callMethod (hi : r.object i) {m : Routine} (hm : r.HasRoutine m) (hargs : ∀ v ∈ args, r.Has v) :
    Within r ev inside r.Has (callMethod i m args) :=
  within_callMethodWith R (converts_coerce R) hi hm hargs

omit R in
theorem within_findMethod (hi : r.object i) (name : String) (argc : Nat) :
    Within r ev inside r.HasRoutine (findMethod i name argc) := by
  refine (Within.heap fun h H => H.cls hi).bind fun cls hcls => ?_
  split
  · rename_i m hm
    exact .give (hcls.method hm)
  · exact .fail _

theorem within_callNamedMethod (hi : r.object i) (name : String) (hargs : ∀ v ∈ args, r.Has v) :
    Within r ev inside r.Has (callNamedMethod i name args) :=
  (within_findMethod hi name args.length).bind fun _ hm => within_callMethod R hi hm hargs

end Exec
end TreeScript
