import Mathlib.Data.Int.Bitwise
import TreeScript.Proofs.Integers.Promotion

/-
# Arithmetic of integers

What an operator gives for two integers is a number of the type that it computes in
(`integral_arithmetic`).  A sum, difference or product is the exact one up to multiples of the number of
values of that type, also of the integers that the operands were before they were taken for numbers of it,
unless a truth value meets a char and is taken for its letter.  The bits of the operators on bits and of
shifts are those of the operands, combined or moved; quotients and remainders are the truncated ones.
Only a division by zero fails, and the only quotient out of range is that of the least number and `-1`.
-/

namespace TreeScript

/-- What an operator makes of two integers in a ring. -/
def BinaryOp.ring? : BinaryOp → Option (Int → Int → Int)
  | add => some (· + ·)
  | sub => some (· - ·)
  | mul => some (· * ·)
  | _ => none

/-- What an operator on bits makes of the bits at one place. -/
def BinaryOp.bitwise? : BinaryOp → Option (Bool → Bool → Bool)
  | bitAnd => some Bool.and
  | bitOr => some Bool.or
  | bitXor => some Bool.xor
  | _ => none

/-- Whether a truth value meets a char. -/
def Value.spells : Value → Value → Bool
  | .bool _, .char _ | .char _, .bool _ => true
  | _, _ => false

/-! ## Bits of integers -/

namespace Integer

variable {w i : Nat} {a b : Int}

theorem two_pow_pos (i : Nat) : (0 : Int) < 2 ^ i := Int.pow_pos (by decide)

theorem two_pow_ne_zero (i : Nat) : (2 : Int) ^ i ≠ 0 := (two_pow_pos i).ne'

theorem testBit_eq_decide (a : Int) (i : Nat) : a.testBit i = decide (a / 2 ^ i % 2 = 1) := by
  cases a with
  | ofNat n =>
    show n.testBit i = _
    rw [Nat.testBit_eq_decide_div_mod_eq, decide_eq_decide, Int.ofNat_eq_natCast]
    norm_cast
  | negSucc n =>
    -- a quotient of a negative number is rounded down, which flips its parity as the bit is flipped
    have hneg : Int.negSucc n / 2 ^ i = -((n / 2 ^ i : Nat) + 1) := by
      rw [Int.negSucc_ediv _ (two_pow_pos _), Int.natCast_ediv, Nat.cast_pow]
      rfl
    show (!n.testBit i) = _
    rw [Nat.testBit_eq_decide_div_mod_eq, hneg, ← decide_not, decide_eq_decide]
    omega

/-- The low bits of an integer depend on its residue only. -/
theorem testBit_of_modEq (hab : a ≡ b [ZMOD 2 ^ w]) (hi : i < w) : a.testBit i = b.testBit i := by
  obtain ⟨t, rfl⟩ := Int.modEq_iff_add_fac.mp hab
  -- the difference is still even after the division that leaves the bit as the last one
  have hpow : (2 : Int) ^ w * t = 2 ^ i * (2 * (2 ^ (w - i - 1) * t)) := by
    rw [← mul_assoc, ← mul_assoc, ← pow_succ, ← pow_add]
    congr 2
    omega
  rw [testBit_eq_decide, testBit_eq_decide, hpow, Int.add_mul_ediv_left _ _ (two_pow_ne_zero i),
    Int.add_mul_emod_self_left]

theorem testBit_mul_two_pow (a : Int) (c i : Nat) :
    (a * 2 ^ c).testBit i = (decide (c ≤ i) && a.testBit (i - c)) := by
  rw [testBit_eq_decide, testBit_eq_decide]
  by_cases hle : c ≤ i
  · have hpow : (2 : Int) ^ i = 2 ^ c * 2 ^ (i - c) := by
      rw [← pow_add, Nat.add_sub_cancel' hle]
    rw [hpow, mul_comm a, Int.mul_ediv_mul_of_pos _ _ (two_pow_pos _), decide_eq_true hle, Bool.true_and]
  · have hpow : (2 : Int) ^ c = 2 ^ i * (2 * 2 ^ (c - i - 1)) := by
      rw [← pow_succ', ← pow_add]
      congr 1
      omega
    rw [hpow, mul_comm a, mul_assoc, Int.mul_ediv_cancel_left _ (two_pow_ne_zero i), mul_assoc,
      Int.mul_emod_right, decide_eq_false hle]
    rfl

theorem testBit_div_two_pow (a : Int) (c i : Nat) : (a / 2 ^ c).testBit i = a.testBit (i + c) := by
  rw [testBit_eq_decide, testBit_eq_decide, Int.ediv_ediv_of_nonneg (two_pow_pos c).le, ← pow_add, add_comm c]

theorem testBit_natCast (n i : Nat) : (n : Int).testBit i = n.testBit i := rfl

theorem getLsbD_ofInt (a : Int) (hi : i < w) : (BitVec.ofInt w a).getLsbD i = a.testBit i := by
  have hne : ((2 ^ w : Nat) : Int) ≠ 0 := by exact_mod_cast two_pow_ne_zero w
  have hcode : ((BitVec.ofInt w a).toNat : Int) ≡ a [ZMOD 2 ^ w] := by
    rw [BitVec.toNat_ofInt, Int.toNat_of_nonneg (Int.emod_nonneg _ hne), Nat.cast_pow]
    exact Int.mod_modEq a _
  rw [BitVec.getLsbD, ← testBit_natCast, testBit_of_modEq hcode hi]

theorem testBit_toInt (x : BitVec w) (hi : i < w) : x.toInt.testBit i = x.getLsbD i := by
  have hcode : x.toInt ≡ x.toNat [ZMOD 2 ^ w] := by
    rw [BitVec.toInt_eq_toNat_bmod, Int.ModEq]
    exact_mod_cast Int.bmod_emod
  rw [testBit_of_modEq hcode hi, testBit_natCast, BitVec.getLsbD]

/-- Operators on bits give the number with the bits combined. -/
theorem binary_bitwise {op : BinaryOp} {f : Bool → Bool → Bool} (ty : TypeKind) (a b : Int)
    (hop : op.bitwise? = some f) :
    ∃ n, binary ty op a b = .ok (Heap.ofInteger ty n) ∧
      ∀ i < Heap.width ty, n.testBit i = f (a.testBit i) (b.testBit i) := by
  cases op <;> cases hop <;> refine ⟨_, rfl, fun i hi => ?_⟩
  case bitAnd => rw [bits, testBit_toInt _ hi, BitVec.getLsbD_and, getLsbD_ofInt a hi, getLsbD_ofInt b hi]
  case bitOr => rw [bits, testBit_toInt _ hi, BitVec.getLsbD_or, getLsbD_ofInt a hi, getLsbD_ofInt b hi]
  case bitXor => rw [bits, testBit_toInt _ hi, BitVec.getLsbD_xor, getLsbD_ofInt a hi, getLsbD_ofInt b hi]

end Integer

/-! ## Quotients and remainders -/

namespace Heap

variable {h : Heap} {v l r : Value} {ty : TypeKind} {m n a b k : Int} {op : BinaryOp}

theorem holds_of_toward_zero (hty : ty.isIntegral) (ha : ty.Holds a) (hle : n.natAbs ≤ a.natAbs)
    (hpos : 0 ≤ a → 0 ≤ n) (hneg : a ≤ 0 → n ≤ 0) : ty.Holds n := by
  cases ty <;> cases hty <;> simp only [TypeKind.Holds, intRange, width] at ha ⊢ <;> omega

theorem tmod_nonpos (b : Int) (ha : a ≤ 0) : a.tmod b ≤ 0 := by
  have hneg : 0 ≤ (-a).tmod b := Int.tmod_nonneg b (Int.neg_nonneg_of_nonpos ha)
  rw [Int.neg_tmod] at hneg
  exact Int.nonpos_of_neg_nonneg hneg

theorem tdiv_nonpos (ha : a ≤ 0) (hb : 0 ≤ b) : a.tdiv b ≤ 0 := by
  have hneg : 0 ≤ (-a).tdiv b := Int.tdiv_nonneg (Int.neg_nonneg_of_nonpos ha) hb
  rw [Int.neg_tdiv] at hneg
  exact Int.nonpos_of_neg_nonneg hneg

theorem holds_tmod (hty : ty.isIntegral) (ha : ty.Holds a) (b : Int) : ty.Holds (a.tmod b) := by
  refine holds_of_toward_zero hty ha ?_ (Int.tmod_nonneg b) (tmod_nonpos b)
  rw [Int.natAbs_tmod]
  exact Nat.mod_le _ _

/-- A quotient of numbers of a type is one, unless the least number is divided by `-1`. -/
theorem holds_tdiv (hty : ty.isIntegral) (ha : ty.Holds a) (hb : ty.Holds b) (hne : b ≠ 0)
    (hleast : ¬ (a = (intRange ty).1 ∧ b = -1)) : ty.Holds (a.tdiv b) := by
  rcases lt_or_gt_of_ne hne with hlt | hgt
  · -- no char is negative; by `-1` only the least number leaves the range, and by less it is halved
    by_cases hone : b = -1
    · subst hone
      have hne' : a ≠ (intRange ty).1 := fun heq => hleast ⟨heq, rfl⟩
      rw [Int.tdiv_neg, Int.tdiv_one]
      cases ty <;> cases hty <;> simp only [TypeKind.Holds, intRange, width] at ha hb hne' ⊢ <;> omega
    · have hhalf : (a.tdiv b).natAbs ≤ a.natAbs / 2 := by
        rw [Int.natAbs_tdiv]
        exact Nat.div_le_div_left (by omega) (by decide)
      cases ty <;> cases hty <;> simp only [TypeKind.Holds, intRange, width] at ha hb ⊢ <;> omega
  · exact holds_of_toward_zero hty ha (Int.natAbs_tdiv_le_natAbs a b)
      (fun hpos => Int.tdiv_nonneg hpos hgt.le) (fun hneg => tdiv_nonpos hneg hgt.le)

theorem wrap_tdiv (hty : ty.isIntegral) (ha : ty.Holds a) (hb : ty.Holds b) (hne : b ≠ 0) :
    wrap ty (a.tdiv b) = if a = (intRange ty).1 ∧ b = -1 then a else a.tdiv b := by
  split
  case isTrue hleast =>
    obtain ⟨rfl, rfl⟩ := hleast
    cases ty <;> cases hty <;> first | exact absurd hb (by decide) | rfl
  case isFalse hleast => exact wrap_of_holds hty (holds_tdiv hty ha hb hne hleast)

/-! ## Operators -/

/-- An operator gives a value of a type, and it is this number of the type. -/
def Gives (h : Heap) (op : BinaryOp) (l r : Value) (ty : TypeKind) (k : Int) : Prop :=
  ∃ v, h.evaluateBinary op l r = .ok v ∧ v.IsNumber ty k

theorem gives_of_promotes (hl : integer? l = some m) (hr : integer? r = some n)
    (hp : Promotes l r ty a b) (hop : op.isShortCircuit = false) (hstrict : op ≠ .strictEq)
    (hk : Integer.binary ty op a b = .ok (ofInteger ty k)) : h.Gives op l r ty (wrap ty k) := by
  refine ⟨ofInteger ty k, ?_, isNumber_ofInteger (isIntegral_of_promotes hl hr hp) k⟩
  rw [evaluateBinary_of_promotes hl hr hp hop hstrict, hk]
  rfl

theorem fails_of_promotes {cause : ErrorCause} (hl : integer? l = some m) (hr : integer? r = some n)
    (hp : Promotes l r ty a b) (hop : op.isShortCircuit = false) (hstrict : op ≠ .strictEq)
    (hk : Integer.binary ty op a b = .error (.of cause)) : h.evaluateBinary op l r = .fail cause := by
  rw [evaluateBinary_of_promotes hl hr hp hop hstrict, hk]
  rfl

/-- As a char, an integer that is no truth value keeps its residue. -/
theorem asChar_modEq (hv : integer? v = some m) (hno : ∀ x, v ≠ .bool x) :
    v.asChar ≡ m [ZMOD 2 ^ width .char] := by
  have hcode : v.asChar = (integer? v).getD 0 % 2 ^ width .char := by
    cases v <;> first | rfl | exact absurd rfl (hno _)
  rw [hcode, hv]
  exact Int.mod_modEq m _

/-- Operands keep their residues, unless a truth value meets a char. -/
theorem modEq_of_promotes (hl : integer? l = some m) (hr : integer? r = some n)
    (hp : Promotes l r ty a b) (hno : l.spells r = false) :
    a ≡ m [ZMOD 2 ^ width ty] ∧ b ≡ n [ZMOD 2 ^ width ty] := by
  have hty := isIntegral_of_promotes hl hr hp
  obtain ⟨htype, hleft, hright⟩ := hp
  by_cases hchar : ty = .char
  · subst hchar
    rw [integerOf_char hl] at hleft
    rw [integerOf_char hr] at hright
    cases hleft
    cases hright
    -- a truth value computes as a char only where it meets one
    constructor
    · refine asChar_modEq hl fun x hx => ?_
      subst hx
      cases r <;> cases hr <;> first | contradiction | cases htype
    · refine asChar_modEq hr fun x hx => ?_
      subst hx
      cases l <;> cases hl <;> first | contradiction | cases htype
  · rw [integerOf_of_integer? hl hty hchar] at hleft
    rw [integerOf_of_integer? hr hty hchar] at hright
    cases hleft
    cases hright
    exact ⟨wrap_modEq hty m, wrap_modEq hty n⟩

theorem ring_modEq {f : Int → Int → Int} {q a' b' : Int} (hop : op.ring? = some f)
    (ha : a ≡ a' [ZMOD q]) (hb : b ≡ b' [ZMOD q]) : f a b ≡ f a' b' [ZMOD q] := by
  cases op <;> cases hop
  case add => exact ha.add hb
  case sub => exact ha.sub hb
  case mul => exact ha.mul hb

theorem gives_ring {f : Int → Int → Int} (hl : integer? l = some m) (hr : integer? r = some n)
    (hp : Promotes l r ty a b) (hop : op.ring? = some f) :
    ∃ k, h.Gives op l r ty k ∧ k ≡ f a b [ZMOD 2 ^ width ty] ∧
      (l.spells r = false → k ≡ f m n [ZMOD 2 ^ width ty]) := by
  have hty := isIntegral_of_promotes hl hr hp
  have hgives : h.Gives op l r ty (wrap ty (f a b)) := by
    cases op <;> cases hop <;> exact gives_of_promotes hl hr hp rfl nofun rfl
  refine ⟨_, hgives, wrap_modEq hty _, fun hno => ?_⟩
  obtain ⟨ha, hb⟩ := modEq_of_promotes hl hr hp hno
  exact (wrap_modEq hty _).trans (ring_modEq hop ha hb)

theorem gives_bitwise {f : Bool → Bool → Bool} (hl : integer? l = some m) (hr : integer? r = some n)
    (hp : Promotes l r ty a b) (hop : op.bitwise? = some f) :
    ∃ k, h.Gives op l r ty k ∧
      ∀ i < width ty, k.testBit i = f (a.testBit i) (b.testBit i) := by
  have hty := isIntegral_of_promotes hl hr hp
  obtain ⟨k, hk, hbits⟩ := Integer.binary_bitwise ty a b hop
  have hgives : h.Gives op l r ty (wrap ty k) := by
    cases op <;> cases hop <;> exact gives_of_promotes hl hr hp rfl nofun hk
  refine ⟨_, hgives, fun i hi => ?_⟩
  rw [Integer.testBit_of_modEq (wrap_modEq hty k) hi, hbits i hi]

end Heap

open Heap

/-- **Arithmetic of integers.**  Operators take two integers `m` and `n` for numbers `a` and `b` of a type,
and give numbers of it.  Sums, differences and products are right up to multiples of the number of its
values; operators on bits combine the bits of `a` and `b`; shifts move those of `a` by `b` modulo the width,
and to the right repeat the sign; quotients and remainders are truncated toward zero, and only these fail,
if `b` is zero. -/
theorem integral_arithmetic (h : Heap) {l r : Value} {m n : Int} (hl : integer? l = some m)
    (hr : integer? r = some n) :
    ∃ ty a b, Promotes l r ty a b ∧
      (∀ op f, op.ring? = some f →
        ∃ k, h.Gives op l r ty k ∧ k ≡ f a b [ZMOD 2 ^ width ty] ∧
          (l.spells r = false → k ≡ f m n [ZMOD 2 ^ width ty])) ∧
      (∀ op f, op.bitwise? = some f →
        ∃ k, h.Gives op l r ty k ∧
          ∀ i < width ty, k.testBit i = f (a.testBit i) (b.testBit i)) ∧
      (∃ k, h.Gives .shl l r ty k ∧
        let c := (b % width ty).toNat
        ∀ i < width ty, k.testBit i = (decide (c ≤ i) && a.testBit (i - c))) ∧
      (∃ k, h.Gives .shr l r ty k ∧
        let c := (b % width ty).toNat
        ∀ i < width ty, k.testBit i = a.testBit (i + c)) ∧
      (b = 0 → h.evaluateBinary .div l r = .fail .divisionByZero ∧
        h.evaluateBinary .mod l r = .fail .moduloByZero) ∧
      (b ≠ 0 →
        h.Gives .div l r ty (if a = (intRange ty).1 ∧ b = -1 then a else a.tdiv b) ∧
          h.Gives .mod l r ty (a.tmod b)) := by
  obtain ⟨ty, a, b, hp⟩ := exists_promotes hl hr
  have hty := isIntegral_of_promotes hl hr hp
  have ha := holds_integerOf hl hty hp.left
  have hb := holds_integerOf hr hty hp.right
  refine ⟨ty, a, b, hp, fun op f => gives_ring hl hr hp, fun op f => gives_bitwise hl hr hp,
    ⟨_, gives_of_promotes hl hr hp rfl nofun rfl, fun i hi => ?_⟩,
    ⟨_, gives_of_promotes hl hr hp rfl nofun rfl, fun i hi => ?_⟩, fun hzero => ⟨?_, ?_⟩,
    fun hne => ⟨?_, ?_⟩⟩
  · rw [Integer.testBit_of_modEq (wrap_modEq hty _) hi, Integer.testBit_mul_two_pow]
    rfl
  · rw [Integer.testBit_of_modEq (wrap_modEq hty _) hi, Integer.testBit_div_two_pow]
    rfl
  · exact fails_of_promotes hl hr hp rfl nofun (if_pos hzero)
  · exact fails_of_promotes hl hr hp rfl nofun (if_pos hzero)
  · rw [← wrap_tdiv hty ha hb hne]
    exact gives_of_promotes hl hr hp rfl nofun (if_neg hne)
  · rw [← wrap_of_holds hty (holds_tmod hty ha b)]
    exact gives_of_promotes hl hr hp rfl nofun (if_neg hne)

/-- The least byte divided by `-1` is itself, and leaves nothing; and a byte and a char meet as chars, where
a sum is that of the numbers up to multiples of their number. -/
theorem integral_arithmetic_least :
    let h := Heap.empty
    h.Gives .div (.byte (-128)) (.byte (-1)) .byte (-128) ∧
      h.Gives .mod (.byte (-128)) (.byte (-1)) .byte 0 ∧
      ∃ k, h.Gives .add (.byte (-1)) (.char 7) .char k ∧ k ≡ -1 + 7 [ZMOD 2 ^ width .char] := by
  intro h
  obtain ⟨ty, a, b, ⟨htype, hleft, hright⟩, -, -, -, -, -, hdiv⟩ :=
    integral_arithmetic h (l := .byte (-128)) (r := .byte (-1)) rfl rfl
  cases htype
  cases hleft
  cases hright
  obtain ⟨ty, a, b, ⟨htype, -, -⟩, hring, -⟩ :=
    integral_arithmetic h (l := .byte (-1)) (r := .char 7) rfl rfl
  cases htype
  obtain ⟨k, hk, -, hmod⟩ := hring .add _ rfl
  exact ⟨(hdiv (by decide)).1, (hdiv (by decide)).2, k, hk, hmod rfl⟩

/-- Truth added to the char that is one gives no char that is two, but the one after the letter `t`. -/
theorem sum_spells :
    integer? (.bool true) = some 1 ∧ integer? (.char 1) = some 1 ∧
      Heap.empty.Gives .add (.bool true) (.char 1) .char 117 ∧
      ¬ (117 : Int) ≡ 1 + 1 [ZMOD 2 ^ width .char] :=
  ⟨rfl, rfl, ⟨_, rfl, rfl, rfl⟩, by decide⟩

end TreeScript
