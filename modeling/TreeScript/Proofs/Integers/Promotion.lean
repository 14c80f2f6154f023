import Mathlib.Data.Int.ModEq
import TreeScript.Operation.Basic

/-
# Integers on the ladder of promotion

Truth values, bytes, shorts, chars, ints and longs are integers: a truth value is one or zero, and a char
is its code.  An operator between two of them computes in one integral type (`Promotes`), whose numbers it
takes them for.

A rung of the ladder has the numbers of every rung below it, so that conversion to it changes nothing, but
for one rung: a char has no sign, and converts from a truth value by the letter with which that begins.
So an operand is taken for another number than it is only where a char meets a truth value or a negative
byte or short (`Value.clashes`).
-/

namespace TreeScript

/-! ## Numbers of a type -/

/-- The types whose values are the integers of some width. -/
def TypeKind.isIntegral : TypeKind → Bool
  | byte | short | char | int | long => true
  | _ => false

/-- A number lies in the range of an integral type. -/
def TypeKind.Holds (ty : TypeKind) (n : Int) : Prop :=
  (Heap.intRange ty).1 ≤ n ∧ n ≤ (Heap.intRange ty).2

instance (ty : TypeKind) (n : Int) : Decidable (ty.Holds n) := inferInstanceAs (Decidable (_ ∧ _))

/-- A value is of a type, and is a number of it. -/
structure Value.IsNumber (v : Value) (ty : TypeKind) (n : Int) : Prop where
  kind : v.kindName = ty.text
  number : Heap.integer? v = some n

namespace Heap

variable {ty : TypeKind} {n : Int}

theorem holds_wrap (hty : ty.isIntegral) (n : Int) : ty.Holds (wrap ty n) := by
  cases ty <;> cases hty <;> simp only [TypeKind.Holds, intRange, wrap, width, Int.bmod_def] <;> omega

theorem wrap_of_holds (hty : ty.isIntegral) (hn : ty.Holds n) : wrap ty n = n := by
  cases ty <;> cases hty <;>
    simp only [TypeKind.Holds, intRange, wrap, width, Int.bmod_def] at hn ⊢ <;> omega

/-- What is dropped are multiples of the number of values of the type. -/
theorem wrap_modEq (hty : ty.isIntegral) (n : Int) : wrap ty n ≡ n [ZMOD 2 ^ width ty] := by
  cases ty <;> cases hty <;> simp only [wrap, width, Int.bmod_def, Int.ModEq] <;> omega

theorem isNumber_ofInteger (hty : ty.isIntegral) (n : Int) :
    (ofInteger ty n).IsNumber ty (wrap ty n) := by
  cases ty with
  | byte => exact ⟨rfl, congrArg some (Int8.toInt_ofInt ..)⟩
  | short => exact ⟨rfl, congrArg some (Int16.toInt_ofInt ..)⟩
  | char =>
    have hcode : ((n % 2 ^ width .char).toNat % 2 ^ 16 : Nat) = n % 2 ^ width .char := by
      simp only [width]
      omega
    exact ⟨rfl, congrArg some hcode⟩
  | int => exact ⟨rfl, congrArg some (Int32.toInt_ofInt ..)⟩
  | long => exact ⟨rfl, congrArg some (Int64.toInt_ofInt ..)⟩
  | _ => cases hty

end Heap

/-! ## Integers as chars -/

/-- The code that an integer has as a char: a truth value that of its letter, a number its low bits. -/
def Value.asChar (v : Value) : Int :=
  match v with
  | .bool b => (if b then 't' else 'f').toNat
  | v => (Heap.integer? v).getD 0 % 2 ^ Heap.width .char

/-- Whether a value is another number as a char. -/
def Value.changesAsChar : Value → Bool
  | .bool _ => true
  | .byte n => n.toInt < 0
  | .short n => n.toInt < 0
  | _ => false

/-- Whether a char meets a value that is another number as a char. -/
def Value.clashes : Value → Value → Bool
  | .char _, v | v, .char _ => v.changesAsChar
  | _, _ => false

/-! ## What operands are taken for -/

/-- The type that an operator computes in between two operands, and the numbers that it takes them
for. -/
structure Promotes (l r : Value) (ty : TypeKind) (a b : Int) : Prop where
  type : (promote? l r).map Rank.type = some ty
  left : Heap.integerOf ty l = .ok a
  right : Heap.integerOf ty r = .ok b

/-! ## Rungs -/

namespace Rank

/-- The integers that values of a rung are. -/
def range : Rank → Int × Int
  | bool => (0, 1)
  | rank => Heap.intRange rank.type

variable {p q : Rank}

/-- The rungs above a rung, that of the chars apart, have its integers. -/
theorem range_mono (hle : q.depth ≤ p.depth) (hq : q.type.isIntegral) (hchar : q ≠ .char) :
    (Heap.intRange q.type).1 ≤ p.range.1 ∧ p.range.2 ≤ (Heap.intRange q.type).2 := by
  cases p <;> cases q <;> first | decide | contradiction

theorem depth_general_le (p q : Rank) :
    (p.general q).depth ≤ p.depth ∧ (p.general q).depth ≤ q.depth := by
  unfold general
  split <;> omega

theorem general_eq (p q : Rank) : p.general q = p ∨ p.general q = q := by
  unfold general
  split
  · exact Or.inl rfl
  · exact Or.inr rfl

end Rank

namespace Heap

variable {h : Heap} {v l r : Value} {ty : TypeKind} {p q : Rank} {m n a b : Int} {op : BinaryOp}

theorem exists_rank (hv : integer? v = some n) :
    ∃ p, Rank.of? v = some p ∧ p.type.isIntegral := by
  cases v <;> first | exact ⟨_, rfl, rfl⟩ | cases hv

theorem mem_range (hv : integer? v = some n) (hp : Rank.of? v = some p) :
    p.range.1 ≤ n ∧ n ≤ p.range.2 := by
  cases v <;> cases hp <;> cases hv
  case bool b => cases b <;> decide
  case byte k => exact ⟨k.le_toInt, Int.le_of_lt_add_one k.toInt_lt⟩
  case short k => exact ⟨k.le_toInt, Int.le_of_lt_add_one k.toInt_lt⟩
  case char u => exact ⟨Int.natCast_nonneg _, Int.le_of_lt_add_one (Int.ofNat_lt.mpr u.toNat_lt)⟩
  case int k => exact ⟨k.le_toInt, Int.le_of_lt_add_one k.toInt_lt⟩
  case long k => exact ⟨k.le_toInt, Int.le_of_lt_add_one k.toInt_lt⟩

/-! ## Conversion -/

theorem integerOf_of_integer? (hv : integer? v = some n) (hty : ty.isIntegral) (hchar : ty ≠ .char) :
    integerOf ty v = .ok (wrap ty n) := by
  have hno : (ty == .char) = false := beq_false_of_ne hchar
  unfold integerOf
  rw [hno]
  cases v with
  | bool b =>
    cases hv
    cases b <;> cases ty <;> first | rfl | cases hty
  | _ => cases hv <;> rfl

theorem integerOf_char (hv : integer? v = some n) : integerOf .char v = .ok v.asChar := by
  cases v <;> cases hv <;> rfl

theorem asChar_of_changesAsChar (hv : integer? v = some n) (hp : Rank.of? v = some p)
    (hle : Rank.char.depth ≤ p.depth) (hkeeps : v.changesAsChar = false) : v.asChar = n := by
  obtain ⟨hlow, hhigh⟩ := mem_range hv hp
  have hcode (hlt : 0 ≤ n ∧ n < 2 ^ width .char) : n % 2 ^ width .char = n :=
    Int.emod_eq_of_lt hlt.1 hlt.2
  cases v <;> cases hp <;> cases hv
  case bool => cases hkeeps
  case byte k => exact hcode ⟨not_lt.mp (of_decide_eq_false hkeeps), Int.lt_of_le_of_lt hhigh (by decide)⟩
  case short k => exact hcode ⟨not_lt.mp (of_decide_eq_false hkeeps), Int.lt_of_le_of_lt hhigh (by decide)⟩
  case char u => exact hcode ⟨hlow, Int.lt_of_le_of_lt hhigh (by decide)⟩
  all_goals exact absurd hle (by decide)

/-- On a rung above its own, a value is the number that it is, unless it is another one as a char. -/
theorem integerOf_of_depth_le (hv : integer? v = some n) (hp : Rank.of? v = some p)
    (hle : q.depth ≤ p.depth) (hq : q.type.isIntegral)
    (hchar : q = .char → v.changesAsChar = false) : integerOf q.type v = .ok n := by
  by_cases hq' : q = .char
  · subst hq'
    rw [Rank.type, integerOf_char hv, asChar_of_changesAsChar hv hp hle (hchar rfl)]
  · have hty : q.type ≠ .char := by
      cases q <;> first | exact absurd rfl hq' | decide
    obtain ⟨hlow, hhigh⟩ := mem_range hv hp
    obtain ⟨hbelow, habove⟩ := Rank.range_mono hle hq hq'
    have hholds : q.type.Holds n := ⟨Int.le_trans hbelow hlow, Int.le_trans hhigh habove⟩
    rw [integerOf_of_integer? hv hq hty, wrap_of_holds hq hholds]

/-- What an integer counts as is a number of the type. -/
theorem holds_integerOf (hv : integer? v = some n) (hty : ty.isIntegral)
    (ha : integerOf ty v = .ok a) : ty.Holds a := by
  by_cases hchar : ty = .char
  · subst hchar
    rw [integerOf_char hv] at ha
    cases ha
    cases v with
    | bool b => cases b <;> decide
    | _ => exact holds_wrap rfl _
  · rw [integerOf_of_integer? hv hty hchar] at ha
    cases ha
    exact holds_wrap hty n

/-! ## Operands -/

/-- Two integers meet on the rung of one of them. -/
theorem exists_promote (hl : integer? l = some m) (hr : integer? r = some n) :
    ∃ p q, Rank.of? l = some p ∧ Rank.of? r = some q ∧ promote? l r = some (p.general q) ∧
      (p.general q).type.isIntegral := by
  obtain ⟨p, hp, hpty⟩ := exists_rank hl
  obtain ⟨q, hq, hqty⟩ := exists_rank hr
  refine ⟨p, q, hp, hq, by simp only [promote?, hp, hq], ?_⟩
  rcases Rank.general_eq p q with heq | heq
  · rw [heq]
    exact hpty
  · rw [heq]
    exact hqty

theorem isIntegral_of_promotes (hl : integer? l = some m) (hr : integer? r = some n)
    (hp : Promotes l r ty a b) : ty.isIntegral := by
  obtain ⟨p, q, _, _, hrank, hty⟩ := exists_promote hl hr
  have htype := hp.type
  rw [hrank] at htype
  cases htype
  exact hty

/-- Operators take any two integers for numbers of some type. -/
theorem exists_promotes (hl : integer? l = some m) (hr : integer? r = some n) :
    ∃ ty a b, Promotes l r ty a b := by
  obtain ⟨p, q, _, _, hrank, hty⟩ := exists_promote hl hr
  have htype : (promote? l r).map Rank.type = some (p.general q).type := by
    rw [hrank, Option.map_some]
  by_cases hchar : (p.general q).type = .char
  · rw [hchar] at htype
    exact ⟨.char, l.asChar, r.asChar, htype, integerOf_char hl, integerOf_char hr⟩
  · exact ⟨_, _, _, htype, integerOf_of_integer? hl hty hchar, integerOf_of_integer? hr hty hchar⟩

/-- Where no char meets what is another number as a char, operands are taken for the numbers that they
are. -/
theorem promotes_of_not_clashes (hl : integer? l = some m) (hr : integer? r = some n)
    (hclash : l.clashes r = false) : ∃ ty, Promotes l r ty m n := by
  obtain ⟨p, q, hp, hq, hrank, hty⟩ := exists_promote hl hr
  obtain ⟨hle, hle'⟩ := Rank.depth_general_le p q
  have hchar : p.general q = .char → l.changesAsChar = false ∧ r.changesAsChar = false := by
    -- two values meet as chars only where one is a char, which does not clash with the other
    intro heq
    rw [heq] at hrank
    cases l <;> cases hl <;> cases r <;> cases hr <;>
      first | exact ⟨rfl, rfl⟩ | exact ⟨rfl, hclash⟩ | exact ⟨hclash, rfl⟩ | cases hrank
  exact ⟨(p.general q).type, by rw [hrank, Option.map_some],
    integerOf_of_depth_le hl hp hle hty fun heq => (hchar heq).1,
    integerOf_of_depth_le hr hq hle' hty fun heq => (hchar heq).2⟩

/-- Where a char meets what is another number as a char, both are taken for their codes. -/
theorem promotes_of_clashes (hl : integer? l = some m) (hr : integer? r = some n)
    (hclash : l.clashes r = true) : Promotes l r .char l.asChar r.asChar := by
  refine ⟨?_, integerOf_char hl, integerOf_char hr⟩
  cases l <;> cases hl <;> cases r <;> cases hr <;> first | rfl | cases hclash

/-! ## Operators -/

theorem eq_bools (hl : integer? l = some m) (hr : integer? r = some n)
    (hrank : promote? l r = some .bool) : ∃ x y, l = .bool x ∧ r = .bool y := by
  cases l <;> cases hl <;> cases r <;> cases hr <;> first | exact ⟨_, _, rfl, rfl⟩ | cases hrank

theorem operands_of_ne_bool (hty : p.type.isIntegral) (hbool : p ≠ .bool) (l r : Value) :
    h.operands p l r =
      (do return Operands.integers p.type (← integerOf p.type l) (← integerOf p.type r)) := by
  cases p <;> first | rfl | exact absurd rfl hbool | cases hty

theorem operands_of_promotes (hl : integer? l = some m) (hr : integer? r = some n)
    (hp : Promotes l r ty a b) :
    ∃ p, promote? l r = some p ∧ h.operands p l r = .ok (.integers ty a b) := by
  obtain ⟨p, q, _, _, hrank, hty⟩ := exists_promote hl hr
  obtain ⟨htype, hleft, hright⟩ := hp
  rw [hrank] at htype
  cases htype
  refine ⟨p.general q, hrank, ?_⟩
  by_cases hbool : p.general q = .bool
  · rw [hbool] at hrank hleft hright ⊢
    obtain ⟨x, y, rfl, rfl⟩ := eq_bools hl hr hrank
    cases hleft
    cases hright
    rfl
  · rw [operands_of_ne_bool hty hbool, hleft, hright]
    rfl

theorem arithmetic_of_promotes (hl : integer? l = some m) (hr : integer? r = some n)
    (hp : Promotes l r ty a b) (op : BinaryOp) :
    h.arithmetic op l r = checked (Integer.binary ty op a b) := by
  obtain ⟨p, hrank, hoperands⟩ := operands_of_promotes (h := h) hl hr hp
  rw [arithmetic, hrank]
  dsimp only
  rw [hoperands]
  rfl

theorem valuesEqual_of_promotes (hl : integer? l = some m) (hr : integer? r = some n)
    (hp : Promotes l r ty a b) : h.valuesEqual l r = .ok (decide (a = b)) := by
  obtain ⟨p, hrank, hoperands⟩ := operands_of_promotes (h := h) hl hr hp
  unfold valuesEqual
  split <;> try first | cases hl | cases hr
  rw [hrank]
  dsimp only
  rw [hoperands]
  show Except.ok (Value.bool (decide (a = b)) == .bool true) = Except.ok (decide (a = b))
  by_cases heq : a = b <;> simp [heq]

theorem not_isTextual (hv : integer? v = some n) : isTextual v = false := by
  cases v <;> first | rfl | cases hv

theorem not_isFractional (hv : integer? v = some n) : isFractional v = false := by
  cases v <;> first | rfl | cases hv

/-- An operator that computes a value from both operands does so on the numbers that it takes them
for. -/
theorem evaluateBinary_of_promotes (hl : integer? l = some m) (hr : integer? r = some n)
    (hp : Promotes l r ty a b) (hop : op.isShortCircuit = false) (hstrict : op ≠ .strictEq) :
    h.evaluateBinary op l r = checked (Integer.binary ty op a b) := by
  have hjoins : joinsText op l r = false := by
    rw [joinsText, not_isTextual hl, not_isTextual hr, Bool.or_false, Bool.and_false]
  rw [evaluateBinary, hjoins, if_neg Bool.false_ne_true]
  unfold binary
  cases op with
  | and | or => cases hop
  | strictEq => exact absurd rfl hstrict
  | eq =>
    dsimp only
    rw [valuesEqual_of_promotes hl hr hp]
    rfl
  | notEq =>
    dsimp only
    rw [valuesEqual_of_promotes hl hr hp]
    show Except.ok (Value.bool (!decide (a = b))) = Except.ok (Value.bool (decide (a ≠ b)))
    rw [decide_not]
  | sub =>
    dsimp only
    split <;> try first | cases hl | cases hr
    exact arithmetic_of_promotes hl hr hp .sub
  | _ =>
    dsimp only
    rw [not_isFractional hl, not_isFractional hr, Bool.or_false, Bool.and_false,
      if_neg Bool.false_ne_true]
    exact arithmetic_of_promotes hl hr hp _

end Heap
end TreeScript
