import TreeScript.Proofs.Isolation.Schedule

/-
# What is done with primitive values

Storage holds what primitive values are not made of, so that whatever is done with them reads nothing of the
heap: their truth, their text, their sum is the same in all heaps.  An evaluation that neither reads nor writes
the state is `Detached`: how it ends hangs on the bound alone.
-/

namespace TreeScript

/-! ## The heap -/

namespace Heap

variable {v w l r : Value}

theorem typeName_primitive (hv : v.Primitive) (h h' : Heap) : h.typeName v = h'.typeName v := by
  cases v <;> first | rfl | cases hv

theorem isInstance_primitive (hv : v.Primitive) (h : Heap) (cls : String) :
    h.isInstance cls v = false := by
  cases v <;> first | rfl | cases hv

theorem truthy?_primitive (hv : v.Primitive) : ∃ b, ∀ h : Heap, h.truthy? v = some b := by
  cases v <;> first | exact ⟨_, fun _ => rfl⟩ | cases hv

theorem truthy_primitive (hv : v.Primitive) (h h' : Heap) : h.truthy v = h'.truthy v := by
  obtain ⟨b, hb⟩ := truthy?_primitive hv
  rw [truthy, truthy, hb, hb]

theorem shape_primitive (hv : v.Primitive) (nested : Bool) : ∃ s, ∀ h : Heap, h.shape v nested = .text s := by
  cases v <;> first | exact ⟨_, fun _ => rfl⟩ | cases hv

theorem render_primitive (hv : v.Primitive) : ∃ s, ∀ h : Heap, h.render v = .ok s := by
  obtain ⟨s, hs⟩ := shape_primitive hv false
  refine ⟨s, fun h => ?_⟩
  have hbound : h.depthBound = h.sequences.size + h.maps.size + h.slots.size + 1 + 1 := rfl
  rw [render, hbound, renderTo, hs]
  rfl

theorem equalTo_primitive (hl : l.Primitive) (h h' : Heap) (n m : Nat) :
    h.equalTo (n + 1) l r = h'.equalTo (m + 1) l r := by
  cases l <;> first | rfl | (cases r <;> rfl) | cases hl

theorem structurallyEqual_primitive (hl : l.Primitive) (h h' : Heap) :
    h.structurallyEqual l r = h'.structurallyEqual l r := by
  rw [structurallyEqual, structurallyEqual, pairBound, pairBound, equalTo_primitive hl h h']

theorem valuesEqual_primitive (hl : l.Primitive) (hr : r.Primitive) (h h' : Heap) :
    h.valuesEqual l r = h'.valuesEqual l r := by
  have hrender : ∀ {v : Value}, v.Primitive → h.render v = h'.render v := by
    intro v hv
    obtain ⟨s, hs⟩ := render_primitive hv
    rw [hs, hs]
  have hoperands : ∀ rank, h.operands rank l r = h'.operands rank l r := by
    intro rank
    simp only [operands, truthy_primitive hl h h', truthy_primitive hr h h']
  unfold valuesEqual
  simp only [hrender hl, hrender hr, structurallyEqual_primitive hl h h', hoperands]

theorem binary_primitive (hl : l.Primitive) (hr : r.Primitive) (op : BinaryOp) (h h' : Heap) :
    h.binary op l r = h'.binary op l r := by
  have hfailure : ∀ op, h.binaryFailure op l r = h'.binaryFailure op l r := by
    intro op
    rw [binaryFailure, binaryFailure, typeName_primitive hl h h', typeName_primitive hr h h']
  have harithmetic : ∀ op, h.arithmetic op l r = h'.arithmetic op l r := by
    intro op
    simp only [arithmetic, operands, truthy_primitive hl h h', truthy_primitive hr h h', hfailure]
  obtain ⟨a, ha⟩ := truthy?_primitive hl
  obtain ⟨b, hb⟩ := truthy?_primitive hr
  unfold binary
  simp only [valuesEqual_primitive hl hr h h', ha, hb, harithmetic, hfailure]

theorem evaluateUnary_primitive (hv : v.Primitive) (op : UnaryOp) (h h' : Heap) :
    h.evaluateUnary op v = h'.evaluateUnary op v := by
  obtain ⟨b, hb⟩ := truthy?_primitive hv
  unfold evaluateUnary
  simp only [hb, typeName_primitive hv h h']

theorem primitive_ofInteger (ty : TypeKind) (n : Int) : (ofInteger ty n).Primitive := by
  cases ty <;> rfl

theorem primitive_toNumber {ty : TypeKind} (h : toNumber v ty = .ok w) : w.Primitive := by
  have hmap : ∀ {α : Type} (f : α → Value) {r : Except EvalError α}, (∀ a, (f a).Primitive) →
      r.map f = .ok w → w.Primitive := by
    intro α f r hf hr
    cases r with
    | error e => cases hr
    | ok a =>
      cases hr
      exact hf a
  cases ty with
  | float => exact hmap Value.float (fun _ => rfl) h
  | double => exact hmap Value.double (fun _ => rfl) h
  | _ => exact hmap _ (primitive_ofInteger _) h

/-- A primitive value is converted to one without anything being stored, unless a reference is wanted. -/
theorem cast_primitive (hv : v.Primitive) {ty : TypeKind} (hty : ty ≠ .ref) :
    (∃ w, w.Primitive ∧ ∀ h : Heap, h.cast v ty = .ok (w, h)) ∨
      ∃ e, ∀ h : Heap, h.cast v ty = .error (.error e) := by
  unfold cast
  cases hnull : v.isNull with
  | true =>
    left
    exact ⟨v, hv, fun h => rfl⟩
  | false =>
    simp only [Bool.false_eq_true, if_false]
    cases ty with
    | ref => exact absurd rfl hty
    | any | void =>
      left
      exact ⟨v, hv, fun h => rfl⟩
    | bool =>
      obtain ⟨b, hb⟩ := truthy?_primitive hv
      left
      refine ⟨.bool b, rfl, fun h => ?_⟩
      rw [truthy, hb]
      rfl
    | string =>
      obtain ⟨s, hs⟩ := render_primitive hv
      left
      cases v with
      | str text => exact ⟨.str text, rfl, fun h => rfl⟩
      | _ =>
        refine ⟨.str s, rfl, fun h => ?_⟩
        dsimp only
        rw [hs]
        rfl
    | byte | short | char | int | long | float | double =>
      dsimp only
      cases hnumber : toNumber v _ with
      | ok w =>
        left
        exact ⟨w, primitive_toNumber hnumber, fun h => rfl⟩
      | error e =>
        right
        exact ⟨e, fun h => rfl⟩
    -- no primitive value is one of these
    | list | array | map | coroutine | consumer | object _ =>
      right
      cases v <;> first | exact ⟨_, fun h => rfl⟩ | cases hv

end Heap

/-! ## Evaluations -/

namespace Exec

variable {α β : Type} {P : α → Prop} {Q : β → Prop}

/-- The evaluation neither reads nor writes the state, and a value that it gives is as said. -/
def Detached (P : α → Prop) (x : Exec α) : Prop :=
  ∀ n, ∃ r : Checked α, (∀ ev s, ev.fuel = n → x ev s = ofChecked r ev s) ∧ ∀ a, r = .ok a → P a

namespace Detached

protected theorem pure {a : α} (h : P a) : Detached P (pure a) := by
  intro n
  refine ⟨.ok a, fun ev s _ => rfl, fun b hb => ?_⟩
  cases hb
  exact h

protected theorem error (e : EvalError) : Detached P (raise (.error e)) := by
  intro n
  refine ⟨.error (.error e), fun ev s _ => rfl, fun b hb => ?_⟩
  cases hb

protected theorem fail (cause : ErrorCause) : Detached P (fail cause) := .error _

protected theorem halt (k : Halt) : Detached P (halt k) := by
  intro n
  refine ⟨.error (.halt k), fun ev s _ => rfl, fun b hb => ?_⟩
  cases hb

protected theorem ofExcept (r : Except EvalError α) : Detached (fun a => r = .ok a) (ofExcept r) := by
  cases r with
  | ok a => exact .pure rfl
  | error e => exact .error e

protected theorem ofChecked (r : Checked α) : Detached (fun a => r = .ok a) (ofChecked r) := by
  rcases r with (e | k) | a
  · exact .error e
  · exact .halt k
  · exact .pure rfl

protected theorem weaken {P' : α → Prop} {x : Exec α} (hx : Detached P x) (h : ∀ a, P a → P' a) :
    Detached P' x := by
  intro n
  obtain ⟨r, hr, hP⟩ := hx n
  exact ⟨r, hr, fun a ha => h a (hP a ha)⟩

protected theorem bind {x : Exec α} {f : α → Exec β} (hx : Detached P x)
    (hf : ∀ a, P a → Detached Q (f a)) : Detached Q (x >>= f) := by
  intro n
  obtain ⟨r, hr, hP⟩ := hx n
  rcases r with (e | k) | a
  · refine ⟨.error (.error e), fun ev s hn => ?_, fun b hb => by cases hb⟩
    rw [bind_apply, hr ev s hn]
    rfl
  · refine ⟨.error (.halt k), fun ev s hn => ?_, fun b hb => by cases hb⟩
    rw [bind_apply, hr ev s hn]
    rfl
  · obtain ⟨r', hr', hQ⟩ := hf a (hP a rfl) n
    refine ⟨r', fun ev s hn => ?_, hQ⟩
    rw [bind_apply, hr ev s hn]
    exact hr' ev s hn

protected theorem fuel : Detached (fun _ => True) fuel := by
  intro n
  refine ⟨.ok n, fun ev s hn => ?_, fun _ _ => trivial⟩
  rw [← hn]
  rfl

/-- Reading what is the same in all heaps. -/
protected theorem heap {f : Heap → α} (hf : ∀ h h', f h = f h') :
    Detached (fun a => ∀ h, f h = a) (heap f) := by
  intro n
  refine ⟨.ok (f .empty), fun ev s _ => ?_, fun a ha => ?_⟩
  · show (Outcome.value (f s.heap), s) = (.value (f .empty), s)
    rw [hf s.heap .empty]
  · cases ha
    intro h
    exact hf h .empty

end Detached

variable {v w l r : Value}

/-! ### Conversions -/

theorem detached_typeMismatch (expected : String) (hv : v.Primitive) :
    Detached P (do fail (.typeMismatch expected (← heap fun h => h.typeName v)) : Exec α) :=
  .bind (.heap (Heap.typeName_primitive hv)) fun _ _ => .fail _

theorem detached_toBool (hv : v.Primitive) : Detached (fun _ => True) (toBool v) := by
  obtain ⟨b, hb⟩ := Heap.truthy?_primitive hv
  refine .bind (.heap fun h h' => ?_) fun r hr => ?_
  · rw [hb, hb]
  · rw [← hr .empty, hb]
    exact .pure trivial

theorem detached_stringify (hv : v.Primitive) : Detached (fun _ => True) (stringify v) := by
  refine .bind .fuel fun n _ => ?_
  cases n with
  | zero => exact .halt _
  | succ n =>
    obtain ⟨s, hs⟩ := Heap.shape_primitive hv false
    rw [stringifyTo]
    refine .bind (.heap fun h h' => ?_) fun r hr => ?_
    · rw [hs, hs]
    · rw [← hr .empty, hs]
      exact .pure trivial

theorem detached_checkInstance (hv : v.Primitive) (cls : String) :
    Detached Value.Primitive (checkInstance v cls) := by
  refine .bind (.heap fun h h' => ?_) fun b hb => ?_
  · rw [Heap.isInstance_primitive hv, Heap.isInstance_primitive hv]
  · rw [← hb .empty, Heap.isInstance_primitive hv]
    exact detached_typeMismatch cls hv

theorem detached_cast (hv : v.Primitive) {ty : TypeKind} (hty : ty ≠ .ref) :
    Detached Value.Primitive (makeChecked fun h => h.cast v ty) := by
  intro n
  rcases Heap.cast_primitive hv hty with ⟨w, hw, hcast⟩ | ⟨e, hcast⟩
  · refine ⟨.ok w, fun ev s _ => ?_, fun a ha => ?_⟩
    · rw [makeChecked_apply, hcast]
      rfl
    · cases ha
      exact hw
  · refine ⟨.error (.error e), fun ev s _ => ?_, fun a ha => by cases ha⟩
    rw [makeChecked_apply, hcast]
    rfl

theorem detached_castValue (hv : v.Primitive) {ty : TypeKind} (hty : ty ≠ .ref) :
    Detached Value.Primitive (castValue v ty) := by
  unfold castValue
  cases hnull : v.isNull with
  | true => exact .pure hv
  | false =>
    cases ty with
    | ref => exact absurd rfl hty
    | bool => exact .bind (detached_toBool hv) fun b _ => .pure rfl
    | string =>
      cases v with
      | str s => exact .pure rfl
      | _ => exact .bind (detached_stringify hv) fun s _ => .pure rfl
    | object cls => exact detached_checkInstance hv cls
    | _ =>
      cases v with
      | object i => cases hv
      | _ => exact detached_cast hv hty

/-- A slot that may hold references takes every value as it is, so that none is made. -/
theorem detached_coerce (hv : v.Primitive) (ty : TypeKind) : Detached Value.Primitive (coerce v ty) := by
  unfold coerce
  cases hty : ty.isUntyped with
  | true => exact .pure hv
  | false =>
    refine detached_castValue hv ?_
    rintro rfl
    cases hty

theorem detached_rangeBound (hv : v.Primitive) : Detached (fun _ => True) (rangeBound v) := by
  refine .bind (detached_castValue hv nofun) fun w hw => ?_
  cases w with
  | long n => exact .pure trivial
  | _ => exact detached_typeMismatch "long" hw

/-! ### Operators -/

theorem detached_plainBinary (op : BinaryOp) (hl : l.Primitive) (hr : r.Primitive) :
    Detached (fun _ => True) (plainBinary op l r) := by
  unfold plainBinary
  cases joinsText op l r with
  | true =>
    refine .bind (detached_stringify hl) fun left _ => ?_
    exact .bind (detached_stringify hr) fun right _ => .pure trivial
  | false =>
    refine .bind (.heap (Heap.binary_primitive hl hr op)) fun w _ => ?_
    exact (Detached.ofChecked w).weaken fun _ _ => trivial

theorem detached_applyBinary (op : BinaryOp) (hl : l.Primitive) (hr : r.Primitive) :
    Detached (fun _ => True) (applyBinary op l r) := by
  unfold applyBinary
  split
  · cases hl
  · cases hr
  · cases hl
  · exact detached_plainBinary op hl hr

theorem detached_applyUnary (op : UnaryOp) (hv : v.Primitive) :
    Detached (fun _ => True) (applyUnary op v) := by
  cases v with
  | object i => cases hv
  | _ =>
    refine .bind (.heap (Heap.evaluateUnary_primitive hv op)) fun w _ => ?_
    exact (Detached.ofExcept w).weaken fun _ _ => trivial

/-! ### Elements -/

theorem placeOf_primitive (hv : v.Primitive) (length : Nat) (h h' : Heap) :
    placeOf h v length = placeOf h' v length := by
  simp only [placeOf, Heap.typeName_primitive hv h h']

theorem element_primitive (hl : l.Primitive) (hr : r.Primitive) (lenient single : Bool) (h h' : Heap) :
    element h l r lenient single = element h' l r lenient single := by
  cases l with
  | list _ | map _ | array _ | object _ | callable _ | ref _ | coroutine _ => cases hl
  | _ => simp only [element, placeOf_primitive hr _ h h', Heap.typeName_primitive hl h h']

/-- What stands in a primitive value is primitive: a string is made of chars. -/
theorem primitive_element (hl : l.Primitive) {lenient single : Bool} {h : Heap}
    (hw : element h l r lenient single = .ok w) : w.Primitive := by
  cases l with
  | str s =>
    simp only [element] at hw
    split at hw
    · generalize placeOf h r _ = place at hw
      cases place <;> cases hw
      rfl
    · cases hw
  | list _ | map _ | array _ | object _ | callable _ | ref _ | coroutine _ => cases hl
  | _ => cases hw

theorem detached_walk (lenient single : Bool) (hv : v.Primitive) {keys : List Value}
    (hkeys : ∀ key ∈ keys, key.Primitive) : Detached Value.Primitive (walk lenient single v keys) := by
  induction keys generalizing v with
  | nil =>
    rw [walk]
    exact .pure hv
  | cons key rest ih =>
    have hkey : key.Primitive := hkeys key List.mem_cons_self
    -- an object alone would run code to give its element
    have hwalk : walk lenient single v (key :: rest) = (do
        let w ← ofChecked (← heap fun h => element h v key (rest.isEmpty && lenient) single)
        walk lenient single w rest) := by
      cases v with
      | object i => cases hv
      | _ => rw [walk]; exact nofun
    rw [hwalk]
    refine .bind (.heap (element_primitive hv hkey _ single)) fun r hr => ?_
    refine .bind (.ofChecked r) fun w hw => ?_
    refine ih ?_ fun key hkey => hkeys key (List.mem_cons_of_mem _ hkey)
    exact primitive_element hv ((hr .empty).trans hw)

theorem detached_setElement (hl : l.Primitive) (key v : Value) :
    Detached Value.Primitive (setElement l key v) := by
  cases l with
  | list _ | array _ | map _ | object _ => cases hl
  | _ => exact detached_typeMismatch _ hl

theorem detached_indexSet (hv : v.Primitive) {keys : List Value} (hkeys : ∀ key ∈ keys, key.Primitive)
    (new : Value) : Detached Value.Primitive (indexSet v keys new) := by
  cases v with
  | object i => cases hv
  | _ =>
    unfold indexSet
    dsimp only
    cases keys.getLast? with
    | none => exact .fail _
    | some last =>
      refine .bind (detached_walk false _ hv fun key hkey => ?_) fun container hcontainer => ?_
      · exact hkeys key (List.dropLast_subset keys hkey)
      · exact detached_setElement hcontainer last new

/-- A primitive value has no fields. -/
theorem detached_fieldSlot (hv : v.Primitive) (x : String) (P : Nat → Prop) :
    Detached P (fieldSlot v x) := by
  cases v with
  | object i => cases hv
  | _ => exact .bind (.heap (Heap.typeName_primitive hv)) fun _ _ => .fail _

/-! ### Loops and exceptions -/

/-- A loop over a primitive value visits the chars of a string. -/
theorem detached_eachSource (hv : v.Primitive) :
    Detached (fun source => ∃ items, source = .items items) (eachSource v) := by
  cases v with
  | list _ | array _ | map _ | coroutine _ => cases hv
  | str s => exact .pure ⟨_, rfl⟩
  | _ => exact detached_typeMismatch _ hv

/-- A primitive value cannot be thrown. -/
theorem detached_throw (hv : v.Primitive) (P : Value → Prop) :
    Detached P (do
      if ← heap fun h => h.isInstance exceptionClass v then raise (.throwValue v)
      else fail .invalidThrow) := by
  refine .bind (.heap fun h h' => ?_) fun b hb => ?_
  · rw [Heap.isInstance_primitive hv, Heap.isInstance_primitive hv]
  · rw [← hb .empty, Heap.isInstance_primitive hv]
    exact .fail _

end Exec
end TreeScript
