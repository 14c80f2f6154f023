import Mathlib.Data.Setoid.Basic
import Mathlib.Order.RelIso.Basic
import TreeScript.Proofs.Integers.Promotion

/-
# Comparisons of integers

Two values that are integers, of whatever kinds, compare as the integers do, unless a char meets a truth
value or a negative byte or short: these are compared by the codes that they have as chars.  So among values
none of which clashes with another one, `==` is an equivalence and `<` a strict total order on its classes
(`comparisons_respect_integers`).  Among all of them `==` is no equivalence: the byte `-1` is equal to the
last char, and this to the int `65535`.
-/

namespace TreeScript

/-- What a comparison says about two integers; the other operators compare nothing. -/
def BinaryOp.compare? (op : BinaryOp) (a b : Int) : Option Bool :=
  match op with
  | lt => some (a < b)
  | gt => some (b < a)
  | ltEq => some (a ≤ b)
  | gtEq => some (b ≤ a)
  | eq => some (a = b)
  | notEq => some (a ≠ b)
  | _ => none

namespace Heap

variable {h : Heap} {l r : Value} {ty : TypeKind} {m n a b : Int} {op : BinaryOp} {c : Bool}

/-- Operands are compared as the numbers that they are taken for. -/
theorem compare_of_promotes (hl : integer? l = some m) (hr : integer? r = some n)
    (hp : Promotes l r ty a b) (hc : op.compare? a b = some c) :
    h.evaluateBinary op l r = .ok (.bool c) := by
  cases op <;> cases hc <;> exact evaluateBinary_of_promotes hl hr hp rfl nofun

/-- An operator says yes about two values. -/
def Affirms (h : Heap) (op : BinaryOp) (l r : Value) : Prop :=
  h.evaluateBinary op l r = .ok (.bool true)

theorem affirms_iff (hl : integer? l = some m) (hr : integer? r = some n) (hclash : l.clashes r = false)
    (hc : op.compare? m n = some c) : h.Affirms op l r ↔ c = true := by
  obtain ⟨ty, hp⟩ := promotes_of_not_clashes hl hr hclash
  rw [Affirms, compare_of_promotes hl hr hp hc]
  simp

end Heap

open Heap

/-- **Comparisons respect the integers.**  Two integers of any kinds compare as the integers do, except that
a char and a truth value or negative number that meets it compare by their codes.  Where no two values
clash, `==` is an equivalence, and `<` a strict total order on its classes. -/
theorem comparisons_respect_integers (h : Heap) :
    (∀ l r m n, integer? l = some m → integer? r = some n → ∀ op c,
      (l.clashes r = false → op.compare? m n = some c → h.evaluateBinary op l r = .ok (.bool c)) ∧
      (l.clashes r = true → op.compare? l.asChar r.asChar = some c →
        h.evaluateBinary op l r = .ok (.bool c))) ∧
    ∀ S : Set Value, (∀ v ∈ S, (integer? v).isSome) → (∀ l ∈ S, ∀ r ∈ S, l.clashes r = false) →
      ∃ classes : Setoid S, (∀ l r, classes l r ↔ h.Affirms .eq l r) ∧
        ∃ less : Quotient classes → Quotient classes → Prop,
          (∀ l r : S, less ⟦l⟧ ⟦r⟧ ↔ h.Affirms .lt l r) ∧ IsStrictTotalOrder _ less := by
  constructor
  · intro l r m n hl hr op c
    constructor
    · intro hclash hc
      obtain ⟨ty, hp⟩ := promotes_of_not_clashes hl hr hclash
      exact compare_of_promotes hl hr hp hc
    · intro hclash hc
      exact compare_of_promotes hl hr (promotes_of_clashes hl hr hclash) hc
  · intro S hinteger hclash
    let number (v : S) : Int := (integer? v).getD 0
    have hnumber (v : S) : integer? v = some (number v) := by
      obtain ⟨n, hn⟩ := Option.isSome_iff_exists.mp (hinteger v v.2)
      simp only [number, hn, Option.getD_some]
    have haffirms (l r : S) {op : BinaryOp} {c : Bool} (hc : op.compare? (number l) (number r) = some c) :
        h.Affirms op l r ↔ c = true :=
      affirms_iff (hnumber l) (hnumber r) (hclash l l.2 r r.2) hc
    -- the classes of `==` are the integers that values of `S` are
    refine ⟨Setoid.ker number, fun l r => ?_,
      fun x y => Setoid.kerLift number x < Setoid.kerLift number y, fun l r => ?_, ?_⟩
    · rw [haffirms l r rfl, decide_eq_true_iff]
      exact Setoid.ker_def
    · rw [haffirms l r rfl, decide_eq_true_iff]
      rfl
    · exact (RelEmbedding.preimage ⟨_, Setoid.kerLift_injective number⟩ (· < ·)).isStrictTotalOrder

/-- A negative byte is less than a truth value and an int, though it is a great number as a char; a char and
a byte that is not negative, an int and a long are in the order of their numbers. -/
theorem comparisons_respect_integers_mixed :
    let h := Heap.empty
    let S : Set Value := {.byte 7, .char 97, .int (-5), .long 97}
    h.evaluateBinary .lt (.byte (-1)) (.bool false) = .ok (.bool true) ∧
      h.evaluateBinary .gt (.byte (-1)) (.char 97) = .ok (.bool true) ∧
      ∃ classes : Setoid S, (∀ l r, classes l r ↔ h.Affirms .eq l r) ∧
        ∃ less : Quotient classes → Quotient classes → Prop,
          (∀ l r : S, less ⟦l⟧ ⟦r⟧ ↔ h.Affirms .lt l r) ∧ IsStrictTotalOrder _ less := by
  intro h S
  obtain ⟨hcompare, horder⟩ := comparisons_respect_integers h
  refine ⟨(hcompare _ _ _ _ rfl rfl .lt true).1 (by decide) (by decide),
    (hcompare _ _ _ _ rfl rfl .gt true).2 (by decide) (by decide), horder S ?_ ?_⟩
  · rintro v (rfl | rfl | rfl | rfl) <;> rfl
  · rintro l (rfl | rfl | rfl | rfl) r (rfl | rfl | rfl | rfl) <;> decide

/-- The byte `-1` is equal to the last char, which is the int `65535`, though they are different integers;
and truth is not equal to the char that is one, but to the letter `t`. -/
theorem comparisons_of_chars_clash :
    let h := Heap.empty
    integer? (.byte (-1)) ≠ integer? (.char 65535) ∧ h.Affirms .eq (.byte (-1)) (.char 65535) ∧
      h.Affirms .eq (.char 65535) (.int 65535) ∧ ¬ h.Affirms .eq (.byte (-1)) (.int 65535) ∧
      integer? (.bool true) = integer? (.char 1) ∧ ¬ h.Affirms .eq (.bool true) (.char 1) ∧
      h.Affirms .eq (.bool true) (.char 116) := by
  have hne {l r : Value} (hfalse : Heap.empty.evaluateBinary .eq l r = .ok (.bool false)) :
      ¬ Heap.empty.Affirms .eq l r := by
    rw [Affirms, hfalse]
    nofun
  have hlast : Heap.empty.Affirms .eq (.char 65535) (.int 65535) :=
    (affirms_iff rfl rfl rfl rfl).mpr (by decide)
  exact ⟨by decide, rfl, hlast, hne rfl, by decide, hne rfl, rfl⟩

end TreeScript
