import TreeScript.Proofs.Instances
import TreeScript.Proofs.Integers.Promotion
import TreeScript.Proofs.Requests
import TreeScript.Proofs.Typing.Conversions

/-
# Converting again

A value on its way into a slot is converted several times: as an argument, when a variable is declared, when it is
assigned.  What a conversion gives suits the type, whichever class was asked for it; and what suits a type is left
alone by a further conversion to it, without any class being asked (`Exec.castValue_of_suits`).  So only the first
conversion counts (`Exec.coerce_idempotent`).
-/

namespace TreeScript

open Exec

/-! ## Numbers -/

namespace Heap

variable {h h' : Heap} {v w : Value} {ty : TypeKind} {p : Rank} {n : Int}

/-- A number is the value of its own type for the integer that it is. -/
theorem ofInteger_of_integer? (hv : integer? v = some n) (hp : Rank.of? v = some p) (hbool : p ≠ .bool) :
    ofInteger p.type n = v := by
  cases v <;> cases hp <;> cases hv
  case bool b => exact absurd rfl hbool
  case byte k => exact congrArg Value.byte (Int8.ofInt_toInt k)
  case short k => exact congrArg Value.short (Int16.ofInt_toInt k)
  case char u =>
    have hlow : ((u.toNat : Int) % 2 ^ width .char).toNat = u.toNat := by
      have hlt := u.toNat_lt
      simp only [width]
      omega
    show Value.char ((u.toNat : Int) % 2 ^ width .char).toNat.toUInt16 = .char u
    rw [hlow]
    exact congrArg Value.char UInt16.ofNat_toNat
  case int k => exact congrArg Value.int (Int32.ofInt_toInt k)
  case long k => exact congrArg Value.long (Int64.ofInt_toInt k)

/-- Its own type takes a number for the integer that it is. -/
theorem integerOf_self (hv : integer? v = some n) (hp : Rank.of? v = some p) (hbool : p ≠ .bool) :
    integerOf p.type v = .ok n := by
  have hrange := mem_range hv hp
  have hwrap : ∀ ty, p.range = intRange ty → ty.isIntegral = true → wrap ty n = n := by
    intro ty hty hintegral
    rw [hty] at hrange
    exact wrap_of_holds hintegral hrange
  cases v <;> cases hp <;> cases hv
  case bool b => exact absurd rfl hbool
  all_goals exact congrArg Except.ok (hwrap _ rfl rfl)

/-- A number is converted to its own type as it is. -/
theorem toNumber_self (hty : ty.isNumeric = true) (hnull : v.isNull = false) (hv : h.suits ty v = true) :
    toNumber v ty = .ok v := by
  have hinteger : ∀ {p : Rank} {n : Int}, integer? v = some n → Rank.of? v = some p → p ≠ .bool →
      (integerOf p.type v).map (ofInteger p.type) = .ok v := by
    intro p n hn hp hbool
    rw [integerOf_self hn hp hbool]
    exact congrArg Except.ok (ofInteger_of_integer? hn hp hbool)
  cases ty <;> cases hty <;> cases v <;> first | exact (Bool.false_ne_true hv).elim | cases hnull
  case float.refl.float.refl x => rfl
  case double.refl.double.refl x => rfl
  all_goals exact hinteger rfl rfl nofun

/-! ## Conversions that ask no class -/

/-- Only of an object it depends on the heap whether it suits a type. -/
theorem suits_congr (hty : ∀ cls, ty ≠ .object cls) (v : Value) (h h' : Heap) :
    h.suits ty v = h'.suits ty v := by
  cases ty with
  | object cls => exact absurd rfl (hty cls)
  | _ => cases v <;> rfl

/-- What suits a type is converted to it as it is, unless a reference is wanted. -/
theorem cast_of_suits (hty : ty ≠ .ref) (hv : h.suits ty v = true) : h.cast v ty = .ok (v, h) := by
  unfold cast
  cases hnull : v.isNull with
  | true => rfl
  | false =>
    simp only [Bool.false_eq_true, if_false]
    cases ty with
    | ref => exact absurd rfl hty
    | any | void => rfl
    | byte | short | char | int | long | float | double =>
      dsimp only
      rw [toNumber_self rfl hnull hv]
    | bool =>
      cases v <;> cases hv
      · cases hnull
      · rfl
    | string | list | array | map | coroutine | consumer =>
      cases v <;> cases hv
      · cases hnull
      · rfl
    | object cls =>
      cases v with
      | null => cases hnull
      | object i => rfl
      | _ => cases hv

/-- A reference or null is what a reference is wanted for. -/
theorem cast_ref (hw : h.cast v .ref = .ok (w, h')) : w = .null ∨ ∃ i, w = .ref i := by
  cases v <;> cases hw <;> first | exact .inl rfl | exact .inr ⟨_, rfl⟩

/-- An object or null is what an object is wanted for. -/
theorem cast_object {cls : String} (hw : h.cast v (.object cls) = .ok (w, h')) :
    w = .null ∨ ∃ i, w = .object i := by
  cases v <;> cases hw <;> first | exact .inl rfl | exact .inr ⟨_, rfl⟩

/-- **Converting again changes nothing**, in whatever heap. -/
theorem cast_again (hw : h.cast v ty = .ok (w, h')) (g : Heap) : g.cast w ty = .ok (w, g) := by
  by_cases href : ty = .ref
  · subst href
    rcases cast_ref hw with rfl | ⟨i, rfl⟩ <;> rfl
  · by_cases hobject : ∃ cls, ty = .object cls
    · obtain ⟨cls, rfl⟩ := hobject
      rcases cast_object hw with rfl | ⟨i, rfl⟩ <;> rfl
    · have hclass : ∀ cls, ty ≠ .object cls := fun cls heq => hobject ⟨cls, heq⟩
      apply cast_of_suits href
      rw [← suits_cast hclass hw]
      exact suits_congr hclass w g h'

/-- What suits a type goes on suiting it where the instances are kept. -/
theorem Keeps.suits (hk : h.Keeps h') (hv : h.suits ty v = true) : h'.suits ty v = true := by
  by_cases hobject : ∃ cls, ty = .object cls
  · obtain ⟨cls, rfl⟩ := hobject
    cases v with
    | object i =>
      have hinstance : h.isInstance cls (.object i) = true := hv
      rw [isInstance, Bool.and_eq_true, decide_eq_true_eq] at hinstance
      obtain ⟨hlt, hcls⟩ := hk i hinstance.1
      show (decide (i < h'.objects.size) && (h'.classOf i).extendsName cls) = true
      rw [hcls, hinstance.2, decide_eq_true hlt]
      rfl
    | _ => exact hv
  · rw [← hv]
    exact suits_congr (fun cls heq => hobject ⟨cls, heq⟩) v h' h

end Heap

/-! ## Conversions that ask classes -/

namespace Exec

variable {v r : Value} {ty : TypeKind} {ev : Evaluator} {s t : State}

theorem cast_apply_of_suits (hty : ty ≠ .ref) (hv : s.heap.suits ty v = true) (ev : Evaluator) :
    makeChecked (fun h => h.cast v ty) ev s = (.value v, s) := by
  rw [makeChecked_apply, Heap.cast_of_suits hty hv]
  rfl

/-- What suits a type is converted to it as it is, whichever evaluator stands by. -/
theorem castValue_of_suits (hty : ty ≠ .ref) (hv : s.heap.suits ty v = true) (ev : Evaluator) :
    castValue v ty ev s = (.value v, s) := by
  unfold castValue
  cases hnull : v.isNull with
  | true => rfl
  | false =>
    simp only [Bool.false_eq_true, if_false]
    cases ty with
    | bool =>
      cases v <;> cases hv
      · cases hnull
      · rfl
    | string =>
      cases v <;> cases hv
      · cases hnull
      · rfl
    | object cls =>
      have hinstance : s.heap.isInstance cls v = true := by
        cases v with
        | null => cases hnull
        | _ => exact hv
      simp only [checkInstance, bind_apply, heap, hinstance, if_true, pure_apply]
    | _ =>
      cases v with
      | object i =>
        first
        | exact (Bool.false_ne_true hv).elim
        | exact cast_apply_of_suits hty hv ev
      | _ => exact cast_apply_of_suits hty hv ev

theorem coerce_of_suits (hv : s.heap.suits ty v = true) (ev : Evaluator) : coerce v ty ev s = (.value v, s) := by
  unfold coerce
  cases hty : ty.isUntyped with
  | true => rfl
  | false =>
    apply castValue_of_suits _ hv
    rintro rfl
    cases hty

theorem castValue_ref_apply (v : Value) (ev : Evaluator) (s : State) :
    castValue v .ref ev s = makeChecked (fun h => h.cast v .ref) ev s := by
  cases v <;> rfl

/-- A reference or null is what an explicit conversion to a reference gives. -/
theorem castValue_ref (h : castValue v .ref ev s = (.value r, t)) : r = .null ∨ ∃ i, r = .ref i := by
  rw [castValue_ref_apply, makeChecked_apply] at h
  cases hcast : s.heap.cast v .ref with
  | ok p =>
    rw [hcast] at h
    cases h
    exact Heap.cast_ref hcast
  | error e =>
    rw [hcast] at h
    cases e <;> cases h

end Exec

/-! ## All conversions -/

/-- **Converting twice is converting once.**  If a value is converted to the type of a slot, or explicitly, then
what comes out is converted to the type again as it is, in every state in which the instances are still there,
and by every evaluator, be it one that runs no code at all.  So it is with the conversions that ask no class, in
every heap. -/
theorem conversions_idempotent (v : Value) (ty : TypeKind) :
    (∀ (ev : Evaluator) (s t : State) (r : Value), coerce v ty ev s = (.value r, t) →
      ∀ (ev' : Evaluator) (u : State), t.heap.Keeps u.heap → coerce r ty ev' u = (.value r, u)) ∧
    (∀ (ev : Evaluator) (s t : State) (r : Value), castValue v ty ev s = (.value r, t) →
      ∀ (ev' : Evaluator) (u : State), t.heap.Keeps u.heap → castValue r ty ev' u = (.value r, u)) ∧
    ∀ (h h' : Heap) (r : Value), h.cast v ty = .ok (r, h') → ∀ g : Heap, g.cast r ty = .ok (r, g) := by
  refine ⟨fun ev s t r h ev' u hkeeps => ?_, fun ev s t r h ev' u hkeeps => ?_,
    fun h h' r hcast g => Heap.cast_again hcast g⟩
  · have hsuits : t.heap.suits ty r = true := gives_coerce v ty ev s r t h
    exact coerce_of_suits (hkeeps.suits hsuits) ev'
  · by_cases href : ty = .ref
    · subst href
      rcases castValue_ref h with rfl | ⟨i, rfl⟩ <;> rfl
    · have hsuits : t.heap.suits ty r = true := gives_castValue v ty ev s r t h
      exact castValue_of_suits href (hkeeps.suits hsuits) ev'

/-- A class whose instances convert to any type by the text of a number. -/
def numeral : ClassDef :=
  (ClassDef.mk "Numeral" [] [] .empty .empty).withMethod
    ⟨"cast", .fixed [⟨"to", .string⟩], .any, .native (.constant (.str " 42 "))⟩

/-- A state in which there is such an instance. -/
def numeralState : State where
  heap := (Heap.empty.newRoot.2.newObject numeral 0).2
  sites := .empty
  held := []
  session := .new 0 0 Host.bare

/-- An object that converts by a text is converted to an integer, and this one stays as it is. -/
theorem conversions_idempotent_numeral :
    ∃ t, coerce (.object 0) .int (evaluator 3) numeralState = (.value (.int 42), t) ∧
      ∀ ev, coerce (.int 42) .int ev t = (.value (.int 42), t) := by
  have hgives : (coerce (.object 0) .int (evaluator 3) numeralState).1 = .value (.int 42) :=
    Outcome.value?_eq_some.mp (by decide +kernel)
  have hfirst : ∃ t, coerce (.object 0) .int (evaluator 3) numeralState = (.value (.int 42), t) :=
    ⟨_, Prod.ext hgives rfl⟩
  obtain ⟨t, ht⟩ := hfirst
  exact ⟨t, ht, fun ev => (conversions_idempotent (.object 0) .int).1 _ _ t _ ht ev t (.refl t.heap)⟩

end TreeScript
