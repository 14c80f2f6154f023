import TreeScript.Proofs.Evaluations

/-
# What conversions give

A slot of a declared type is meant to hold null or a value of exactly the kind that the type names,
and for the name of a class an instance of the class or of one that extends it; `any`, `void` and `ref`
leave a slot untyped.  This is `Heap.suits`.

Every conversion to a type gives a value that suits it, if it gives one, in the heap as the conversion
leaves it: the hooks of classes may have run code of the program in between.
-/

namespace TreeScript

/-! ## Values of a type -/

namespace Heap

/-- Whether a slot of a type may hold a value. -/
def suits (h : Heap) : TypeKind → Value → Bool
  | .any, _ | .void, _ | .ref, _ | _, .null => true
  | .bool, .bool _ | .byte, .byte _ | .short, .short _ | .char, .char _ | .int, .int _
  | .long, .long _ | .float, .float _ | .double, .double _ | .string, .str _ | .list, .list _
  | .map, .map _ | .array, .array _ | .consumer, .callable _ | .coroutine, .coroutine _ => true
  | .object cls, v => h.isInstance cls v
  | _, _ => false

variable {h h' : Heap} {v w : Value} {ty : TypeKind}

theorem suits_of_isNull (hv : v.isNull = true) : h.suits ty v = true := by
  cases v with
  | null => cases ty <;> rfl
  | _ => cases hv

theorem suits_of_isUntyped (hty : ty.isUntyped = true) (v : Value) : h.suits ty v = true := by
  cases ty <;> first | rfl | cases hty

/-- The instances of a class suit its name. -/
theorem suits_of_isInstance {cls : String} (hv : h.isInstance cls v = true) :
    h.suits (.object cls) v = true := by
  cases v <;> first | rfl | exact hv

/-- An object is an instance of its class. -/
theorem suits_instance {i : Nat} (hi : i < h.objects.size) :
    h.suits (.object (h.classOf i).name) (.object i) = true := by
  refine suits_of_isInstance ?_
  rw [isInstance, decide_eq_true hi, Bool.true_and]
  cases h.classOf i
  rw [ClassDef.extendsName, ClassDef.name, beq_self_eq_true, Bool.true_or]

/-- An object whose class has a method is an instance of its class. -/
theorem suits_of_method? {i argc : Nat} {name : String} {m : Routine}
    (hm : (h.classOf i).method? name argc = some m) :
    h.suits (.object (h.classOf i).name) (.object i) = true := by
  by_cases hi : i < h.objects.size
  · exact suits_instance hi
  · -- where there is no object there is no method
    have hclass : h.classOf i = default := by
      rw [Heap.classOf, Heap.object, Array.getD, dif_neg hi]
      rfl
    rw [hclass] at hm
    cases hm

/-- A slot starts with a value of its type. -/
theorem suits_defaultValue (h : Heap) (ty : TypeKind) :
    (h.defaultValue ty).2.suits ty (h.defaultValue ty).1 = true := by
  cases ty <;> rfl

theorem suits_toNumber (hty : ty.isNumeric = true) (hw : toNumber v ty = .ok w) :
    h.suits ty w = true := by
  have hmap : ∀ {α : Type} {f : α → Value} {r : Except EvalError α}, r.map f = .ok w →
      ∃ a, w = f a := by
    intro α f r hr
    cases r with
    | error e => cases hr
    | ok a =>
      cases hr
      exact ⟨a, rfl⟩
  cases ty <;> try cases hty
  all_goals
    obtain ⟨a, rfl⟩ := hmap hw
    rfl

/-- What a value is converted to suits the type, unless the type names a class. -/
theorem suits_cast (hty : ∀ cls, ty ≠ .object cls) (hw : h.cast v ty = .ok (w, h')) :
    h'.suits ty w = true := by
  cases hnull : v.isNull with
  | true =>
    simp only [Heap.cast, hnull, if_true, Except.ok.injEq, Prod.mk.injEq] at hw
    obtain ⟨rfl, rfl⟩ := hw
    exact suits_of_isNull hnull
  | false =>
    simp only [Heap.cast, hnull, Bool.false_eq_true, if_false] at hw
    cases ty with
    | any | void | ref => exact suits_of_isUntyped rfl w
    | object cls => exact absurd rfl (hty cls)
    | byte | short | char | int | long | float | double =>
      dsimp only at hw
      split at hw
      · rename_i hnumber
        cases hw
        exact suits_toNumber rfl hnumber
      · cases hw
    | bool =>
      cases hw
      rfl
    | string =>
      cases v with
      | str s =>
        cases hw
        rfl
      | _ =>
        dsimp only at hw
        generalize h.render _ = text at hw
        cases text <;> cases hw
        rfl
    | list | array =>
      cases v <;> cases hw <;> rfl
    | map | coroutine | consumer =>
      cases v <;> cases hw
      rfl

end Heap

/-! ## Evaluations that give a value of a type -/

namespace Exec

/-- Whatever value an evaluation gives is as said, in the state in which it gives it. -/
def Gives {α : Type} (P : α → State → Prop) (x : Exec α) : Prop :=
  ∀ ev s a t, x ev s = (.value a, t) → P a t

variable {α β : Type} {P : β → State → Prop}

theorem Gives.bind {x : Exec α} {f : α → Exec β} (h : ∀ a, Gives P (f a)) : Gives P (x >>= f) := by
  intro ev s b t hb
  rw [bind_apply] at hb
  generalize x ev s = r at hb
  rcases r with ⟨a | g | k, u⟩
  · exact h a ev u b t hb
  · cases hb
  · cases hb

theorem gives_raise (g : Signal) : Gives P (raise g : Exec β) := by
  intro ev s b t hb
  cases hb

theorem gives_pure {b : β} (h : ∀ s, P b s) : Gives P (pure b) := by
  intro ev s c t hc
  cases hc
  exact h s

/-- The value suits a type. -/
abbrev Suiting (ty : TypeKind) (v : Value) (s : State) : Prop := s.heap.suits ty v = true

theorem gives_cast {v : Value} {ty : TypeKind} (hty : ∀ cls, ty ≠ .object cls) :
    Gives (Suiting ty) (makeChecked fun h => h.cast v ty) := by
  intro ev s w t hw
  rw [makeChecked_apply] at hw
  cases hcast : s.heap.cast v ty with
  | ok p =>
    rw [hcast] at hw
    cases hw
    exact Heap.suits_cast hty hcast
  | error e =>
    rw [hcast] at hw
    cases e <;> cases hw

theorem gives_defaultValue (ty : TypeKind) : Gives (Suiting ty) (make fun h => h.defaultValue ty) := by
  intro ev s w t hw
  cases hw
  exact Heap.suits_defaultValue s.heap ty

theorem gives_checkInstance (v : Value) (cls : String) :
    Gives (Suiting (.object cls)) (checkInstance v cls) := by
  intro ev s w t hw
  cases hv : s.heap.isInstance cls v with
  | true =>
    simp only [checkInstance, bind_apply, heap, hv, if_true, pure_apply] at hw
    cases hw
    exact Heap.suits_of_isInstance hv
  | false =>
    simp only [checkInstance, bind_apply, heap, hv, Bool.false_eq_true, if_false] at hw
    cases hw

theorem gives_convertWord (v : Value) (ty : TypeKind) : Gives (Suiting ty) (convertWord v ty) := by
  unfold convertWord
  cases hty : ty.isUntyped with
  | true => exact gives_pure fun s => Heap.suits_of_isUntyped hty v
  | false =>
    cases ty with
    | object cls => exact gives_checkInstance v cls
    | _ => exact gives_cast nofun

theorem gives_objectToNumber (i : Nat) {ty : TypeKind} (hty : ty.isNumeric = true) :
    Gives (Suiting ty) (objectToNumber i ty) := by
  have hclass : ∀ cls, ty ≠ .object cls := by
    rintro cls rfl
    cases hty
  refine .bind fun asked => ?_
  rcases asked with _ | w
  · exact .bind fun _ => gives_raise _
  · cases w with
    | object j => exact .bind fun _ => gives_raise _
    | _ => exact gives_cast hclass

theorem gives_castValue (v : Value) (ty : TypeKind) : Gives (Suiting ty) (castValue v ty) := by
  unfold castValue
  cases hnull : v.isNull with
  | true => exact gives_pure fun s => Heap.suits_of_isNull hnull
  | false =>
    cases ty with
    | bool => exact .bind fun b => gives_pure fun _ => rfl
    | string =>
      cases v with
      | str s => exact gives_pure fun _ => rfl
      | _ => exact .bind fun s => gives_pure fun _ => rfl
    | object cls => exact gives_checkInstance v cls
    | _ =>
      cases v with
      | object i =>
        first
        | exact gives_objectToNumber i rfl
        | exact gives_cast nofun
      | _ => exact gives_cast nofun

/-- A value that is converted to the type of a slot suits it. -/
theorem gives_coerce (v : Value) (ty : TypeKind) : Gives (Suiting ty) (coerce v ty) := by
  unfold coerce
  cases hty : ty.isUntyped with
  | true => exact gives_pure fun s => Heap.suits_of_isUntyped hty v
  | false => exact gives_castValue v ty

end Exec
end TreeScript
