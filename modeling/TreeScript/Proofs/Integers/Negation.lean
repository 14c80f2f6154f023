import TreeScript.Proofs.Integers.Arithmetic
import TreeScript.Proofs.Integers.Comparison
import TreeScript.Proofs.Overloads

/-
# Negation of integers

The negation of an integer is of the integer's own type, but for a char, which has no negative numbers and is
negated as an int.  The difference from the int zero is of the type in which the two meet: a long for a long,
and an int for all else.  Each is the opposite number up to multiples of the number of values of its type.

So the two are equal unless the narrower type has no room for the opposite (`neg_eq_zero_sub`).  That is so of
the least byte and the least short: they are their own negations, while zero minus either of them is the
positive int.  The least int and the least long are their own negations as well, but here the difference has
no more room.
-/

namespace TreeScript

/-! ## Types of negations and differences -/

/-- The type that the negation of an integer is of; truth values are not negated. -/
def Value.negationType? : Value → Option TypeKind
  | .byte _ => some .byte
  | .short _ => some .short
  | .char _ | .int _ => some .int
  | .long _ => some .long
  | _ => none

/-- The type in which an integer meets an int. -/
def Value.typeBesideInt : Value → TypeKind
  | .long _ => .long
  | _ => .int

/-- Whether a value is the least byte or the least short. -/
def Value.isLeastNarrow : Value → Bool
  | .byte k => k = Int8.minValue
  | .short k => k = Int16.minValue
  | _ => false

namespace Heap

variable {h : Heap} {x v w : Value} {ty : TypeKind} {m n : Int}

theorem exists_negationType (hx : integer? x = some n) (hno : ∀ b, x ≠ .bool b) :
    ∃ ty, x.negationType? = some ty := by
  cases x with
  | bool b => exact absurd rfl (hno b)
  | byte | short | char | int | long => exact ⟨_, rfl⟩
  | _ => cases hx

/-- A negation is the opposite number, with high bits dropped. -/
theorem evaluateUnary_neg (h : Heap) (hx : integer? x = some n) (hty : x.negationType? = some ty) :
    ∃ v, h.evaluateUnary .neg x = .ok v ∧ v.IsNumber ty (wrap ty (-n)) := by
  cases x with
  | byte k =>
    cases hx
    cases hty
    exact ⟨_, rfl, rfl, congrArg some (Int8.toInt_neg k)⟩
  | short k =>
    cases hx
    cases hty
    exact ⟨_, rfl, rfl, congrArg some (Int16.toInt_neg k)⟩
  | char c =>
    cases hx
    cases hty
    exact ⟨_, rfl, rfl, congrArg some (Int32.toInt_ofInt ..)⟩
  | int k =>
    cases hx
    cases hty
    exact ⟨_, rfl, rfl, congrArg some (Int32.toInt_neg k)⟩
  | long k =>
    cases hx
    cases hty
    exact ⟨_, rfl, rfl, congrArg some (Int64.toInt_neg k)⟩
  | _ => cases hty

/-- An int and an integer are taken for the numbers that they are. -/
theorem promotes_zero (hx : integer? x = some n) : Promotes (.int 0) x x.typeBesideInt 0 n := by
  have hclash : (Value.int 0).clashes x = false := by
    cases x <;> rfl
  obtain ⟨ty, hp⟩ := promotes_of_not_clashes (l := .int 0) rfl hx hclash
  have htype : ty = x.typeBesideInt := by
    have htype := hp.type
    cases x <;> cases hx <;> cases htype <;> rfl
  rw [← htype]
  exact hp

/-- A difference from zero is the opposite number, with high bits dropped. -/
theorem evaluateBinary_zero_sub (h : Heap) (hx : integer? x = some n) :
    ∃ w, h.evaluateBinary .sub (.int 0) x = .ok w ∧
      w.IsNumber x.typeBesideInt (wrap x.typeBesideInt (-n)) := by
  have hk : Integer.binary x.typeBesideInt .sub 0 n = .ok (ofInteger x.typeBesideInt (0 - n)) := rfl
  rw [zero_sub] at hk
  exact gives_of_promotes rfl hx (promotes_zero hx) rfl nofun hk

/-! ## Where the two are different numbers -/

theorem wrap_neg_byte (k : Int8) :
    wrap .byte (-k.toInt) = wrap .int (-k.toInt) ↔ k ≠ Int8.minValue := by
  have hlow := k.le_toInt
  have hhigh := k.toInt_lt
  rw [Ne, ← Int8.toInt_inj, Int8.toInt_minValue]
  simp only [wrap, width, Int.bmod_def]
  omega

theorem wrap_neg_short (k : Int16) :
    wrap .short (-k.toInt) = wrap .int (-k.toInt) ↔ k ≠ Int16.minValue := by
  have hlow := k.le_toInt
  have hhigh := k.toInt_lt
  rw [Ne, ← Int16.toInt_inj, Int16.toInt_minValue]
  simp only [wrap, width, Int.bmod_def]
  omega

/-- Only bytes and shorts have negations of a narrower type than their differences from zero. -/
theorem wrap_neg_eq_iff (hx : integer? x = some n) (hty : x.negationType? = some ty) :
    wrap ty (-n) = wrap x.typeBesideInt (-n) ↔ x.isLeastNarrow = false := by
  cases x with
  | byte k =>
    cases hx
    cases hty
    exact (wrap_neg_byte k).trans decide_eq_false_iff_not.symm
  | short k =>
    cases hx
    cases hty
    exact (wrap_neg_short k).trans decide_eq_false_iff_not.symm
  | char | int | long =>
    cases hty
    exact iff_of_true rfl rfl
  | _ => cases hty

/-- The least byte and the least short are their own negations, and have a positive difference from zero. -/
theorem negation_of_isLeastNarrow (hx : integer? x = some n) (hleast : x.isLeastNarrow = true)
    (hv : h.evaluateUnary .neg x = .ok v) : v = x ∧ wrap .int (-n) = -n := by
  cases x with
  | byte k =>
    obtain rfl := of_decide_eq_true hleast
    cases hx
    cases hv
    exact ⟨rfl, rfl⟩
  | short k =>
    obtain rfl := of_decide_eq_true hleast
    cases hx
    cases hv
    exact ⟨rfl, rfl⟩
  | _ => cases hleast

theorem ne_char_of_isNumber (hv : v.IsNumber ty n) (hty : ty.text ≠ TypeKind.char.text) (u : UInt16) :
    v ≠ .char u := by
  rintro rfl
  exact hty hv.kind.symm

/-- Negations and differences are no chars, so that they compare as the numbers that they are. -/
theorem evaluateBinary_eq_of_isNumber (h : Heap) (hty : x.negationType? = some ty) (hv : v.IsNumber ty m)
    (hw : w.IsNumber x.typeBesideInt n) : h.evaluateBinary .eq v w = .ok (.bool (m = n)) := by
  have htype : ty.text ≠ TypeKind.char.text := by
    cases x <;> cases hty <;> decide
  have hbeside : x.typeBesideInt.text ≠ TypeKind.char.text := by
    have hwide : x.typeBesideInt = .int ∨ x.typeBesideInt = .long := by
      cases x <;> first | exact Or.inl rfl | exact Or.inr rfl
    rcases hwide with heq | heq <;> rw [heq] <;> decide
  have hchar := ne_char_of_isNumber hv htype
  have hchar' := ne_char_of_isNumber hw hbeside
  have hclash : v.clashes w = false := by
    cases v <;> cases w <;> first | rfl | exact absurd rfl (hchar _) | exact absurd rfl (hchar' _)
  obtain ⟨ty', hp⟩ := promotes_of_not_clashes hv.number hw.number hclash
  exact compare_of_promotes hv.number hw.number hp rfl

end Heap

/-! ## Evaluations -/

namespace Exec

variable {ev : Evaluator} {s : State} {l r x : Value} {m n : Int} {op : BinaryOp}

/-- Between integers an operator does what it does without running code of the program. -/
theorem applyBinary_integers (hl : Heap.integer? l = some m) (hr : Heap.integer? r = some n) :
    applyBinary op l r ev s = ofChecked (s.heap.evaluateBinary op l r) ev s := by
  have hobject : ∀ i, l ≠ .object i := by
    rintro i rfl
    cases hl
  have htext : ¬ ((∃ y, l = .str y) ∧ ∃ j, r = .object j) := by
    rintro ⟨⟨y, rfl⟩, -⟩
    cases hl
  have hjoins : joinsText op l r = false := by
    rw [joinsText, Heap.not_isTextual hl, Heap.not_isTextual hr, Bool.or_false, Bool.and_false]
  rw [applyBinary_plain hobject htext, plainBinary, Heap.evaluateBinary, hjoins,
    if_neg Bool.false_ne_true, if_neg Bool.false_ne_true]
  rfl

theorem applyUnary_integer {op : UnaryOp} (hx : Heap.integer? x = some n) :
    applyUnary op x ev s = ofExcept (s.heap.evaluateUnary op x) ev s := by
  cases x <;> first | rfl | cases hx

end Exec

open Exec Heap

/-- **Negation is subtraction from zero, where it has room.**  The negation of a byte, short, char, int or long
and its difference from the int zero are always there, and each is the opposite number with the bits dropped
for which its type has no room.  They are equal, unless the operand is the least byte or the least short:
this is its own negation, while the difference is the opposite number. -/
theorem neg_eq_zero_sub (fuel : Nat) (s : State) {x : Value} {n : Int} (hx : integer? x = some n)
    (hno : ∀ b, x ≠ .bool b) :
    ∃ ty v w, x.negationType? = some ty ∧
      (applyUnary .neg x).run fuel s = (.value v, s) ∧ v.IsNumber ty (wrap ty (-n)) ∧
      (applyBinary .sub (.int 0) x).run fuel s = (.value w, s) ∧
      w.IsNumber x.typeBesideInt (wrap x.typeBesideInt (-n)) ∧
      (applyBinary .eq v w).run fuel s = (.value (.bool !x.isLeastNarrow), s) ∧
      (x.isLeastNarrow = true → v = x ∧ integer? w = some (-n)) := by
  obtain ⟨ty, hty⟩ := exists_negationType hx hno
  obtain ⟨v, hneg, hv⟩ := evaluateUnary_neg s.heap hx hty
  obtain ⟨w, hsub, hw⟩ := evaluateBinary_zero_sub s.heap hx
  refine ⟨ty, v, w, hty, ?_, hv, ?_, hw, ?_, fun hleast => ?_⟩
  · show applyUnary .neg x (evaluator fuel) s = _
    rw [applyUnary_integer hx, hneg]
    rfl
  · show applyBinary .sub (.int 0) x (evaluator fuel) s = _
    rw [applyBinary_integers rfl hx, hsub]
    rfl
  · have hequal : decide (wrap ty (-n) = wrap x.typeBesideInt (-n)) = !x.isLeastNarrow := by
      simp only [wrap_neg_eq_iff hx hty, Bool.decide_eq_false]
    show applyBinary .eq v w (evaluator fuel) s = _
    rw [applyBinary_integers hv.number hw.number, evaluateBinary_eq_of_isNumber s.heap hty hv hw, hequal]
    rfl
  · obtain ⟨hself, hroom⟩ := negation_of_isLeastNarrow hx hleast hneg
    have hbeside : x.typeBesideInt = .int := by
      cases x <;> first | rfl | cases hleast
    refine ⟨hself, ?_⟩
    rw [hw.number, hbeside, hroom]

/-- The last char and the least int have negations that equal their differences from zero, and the negation
of the least short is the least short, while its difference from zero is a positive int. -/
theorem neg_eq_zero_sub_extremes :
    let s := Host.obligingState
    (∃ v w, (applyUnary .neg (.char 65535)).run 9 s = (.value v, s) ∧ v.IsNumber .int (-65535) ∧
      (applyBinary .sub (.int 0) (.char 65535)).run 9 s = (.value w, s) ∧
      (applyBinary .eq v w).run 9 s = (.value (.bool true), s)) ∧
    (∃ v w, (applyUnary .neg (.int Int32.minValue)).run 9 s = (.value v, s) ∧
      v.IsNumber .int (-2147483648) ∧
      (applyBinary .sub (.int 0) (.int Int32.minValue)).run 9 s = (.value w, s) ∧
      (applyBinary .eq v w).run 9 s = (.value (.bool true), s)) ∧
    ∃ w, (applyUnary .neg (.short Int16.minValue)).run 9 s = (.value (.short Int16.minValue), s) ∧
      (applyBinary .sub (.int 0) (.short Int16.minValue)).run 9 s = (.value w, s) ∧
      integer? w = some 32768 := by
  intro s
  obtain ⟨_, v, w, hty, hneg, hv, hsub, -, heq, -⟩ := neg_eq_zero_sub 9 s (x := .char 65535) rfl nofun
  obtain ⟨_, v', w', hty', hneg', hv', hsub', -, heq', -⟩ :=
    neg_eq_zero_sub 9 s (x := .int Int32.minValue) rfl nofun
  obtain ⟨_, u, w'', -, hneg'', -, hsub'', -, -, hleast⟩ :=
    neg_eq_zero_sub 9 s (x := .short Int16.minValue) rfl nofun
  cases hty
  cases hty'
  obtain ⟨rfl, hw''⟩ := hleast rfl
  exact ⟨⟨v, w, hneg, hv, hsub, heq⟩, ⟨v', w', hneg', hv', hsub', heq'⟩, w'', hneg'', hsub'', hw''⟩

/-- In a program, the negation of the least byte is not equal to zero minus the least byte. -/
theorem neg_least_byte_ne_zero_sub :
    let s := Host.obligingState
    let least : Node := .literal (.byte Int8.minValue)
    (evaluateNode 9 (.unary .neg least) s.session.root s).1 = .value (.byte (-128)) ∧
      (evaluateNode 9 (.binary .sub (.literal (.int 0)) least) s.session.root s).1 = .value (.int 128) ∧
      (evaluateNode 9 (.binary .eq (.unary .neg least) (.binary .sub (.literal (.int 0)) least))
        s.session.root s).1 = .value (.bool false) :=
  ⟨Outcome.value?_eq_some.mp (by decide +kernel), Outcome.value?_eq_some.mp (by decide +kernel),
    Outcome.value?_eq_some.mp (by decide +kernel)⟩

end TreeScript
