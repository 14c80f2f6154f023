import Mathlib.Data.Nat.Digits.Defs
import TreeScript.Proofs.Integers.Promotion

/-
# Strings as integers

A numeral is an optional sign and a run of digits, which is for a number by the places at which the digits
stand.  An operator that computes with numbers takes a string that meets an integer for the number of the
integer's type that it reads as, blanks around a numeral set aside, and fails where it reads as none
(`strings_read`).  Beside a truth value nothing is read: the string counts as whether it is empty, so that
its number is only right where that is one.
-/

namespace TreeScript

/-! ## Numerals -/

namespace Reader

variable {cs ds : List Char} {n m : Int}

/-- A run of digits. -/
def IsDigits (ds : List Char) : Prop := ds ≠ [] ∧ ∀ c ∈ ds, c.isDigit

instance (ds : List Char) : Decidable (IsDigits ds) := inferInstanceAs (Decidable (_ ∧ _))

/-- The number that digits are for: that of each one times the power of ten of its place. -/
def placeValue (ds : List Char) : Nat := Nat.ofDigits 10 (ds.reverse.map fun c => c.toNat - '0'.toNat)

/-- The texts that are numerals, and their numbers. -/
inductive Numeral : List Char → Int → Prop
  | plain {ds : List Char} : IsDigits ds → Numeral ds (placeValue ds)
  | plus {ds : List Char} : IsDigits ds → Numeral ('+' :: ds) (placeValue ds)
  | minus {ds : List Char} : IsDigits ds → Numeral ('-' :: ds) (-placeValue ds)

theorem placeValue_cons (c : Char) (ds : List Char) :
    placeValue (c :: ds) = placeValue ds + 10 ^ ds.length * (c.toNat - '0'.toNat) := by
  rw [placeValue, List.reverse_cons, List.map_append, Nat.ofDigits_append, List.length_map,
    List.length_reverse, List.map_singleton, Nat.ofDigits_singleton]
  rfl

theorem digitsFrom_eq (ds : List Char) (start : Nat) :
    digitsFrom start ds = start * 10 ^ ds.length + placeValue ds := by
  induction ds generalizing start with
  | nil => rw [List.length_nil, pow_zero, Nat.mul_one]; rfl
  | cons c ds ih =>
    have hstep : digitsFrom start (c :: ds) = digitsFrom (10 * start + (c.toNat - '0'.toNat)) ds := rfl
    rw [hstep, ih, placeValue_cons, List.length_cons, pow_succ]
    ring

/-- Digits read one after the other are worth what their places say. -/
theorem digitsFrom_zero (ds : List Char) : digitsFrom 0 ds = placeValue ds := by
  rw [digitsFrom_eq, Nat.zero_mul, Nat.zero_add]

theorem not_isDigits_iff (ds : List Char) : ¬ IsDigits ds ↔ ds.isEmpty ∨ !ds.all Char.isDigit := by
  rw [IsDigits, not_and_or, not_not, List.isEmpty_iff, Bool.not_eq_true', Bool.eq_false_iff, ne_eq,
    List.all_eq_true]

theorem int?_eq (cs : List Char) :
    int? cs =
      if IsDigits (sign cs).2 then
        some (if (sign cs).1 then -(placeValue (sign cs).2 : Int) else placeValue (sign cs).2)
      else none := by
  simp only [int?, ← not_isDigits_iff, digitsFrom_zero, ite_not]

theorem sign_of_isDigits (hds : IsDigits ds) : sign ds = (false, ds) := by
  unfold sign
  split
  · exact absurd (hds.2 '-' List.mem_cons_self) (by decide)
  · exact absurd (hds.2 '+' List.mem_cons_self) (by decide)
  · rfl

/-- The reader takes the numerals, and for their numbers. -/
theorem int?_eq_some_iff : int? cs = some n ↔ Numeral cs n := by
  constructor
  · intro hread
    rw [int?_eq] at hread
    rcases hsign : sign cs with ⟨negative, ds⟩
    rw [hsign] at hread
    obtain ⟨hds, hn⟩ := Option.ite_none_right_eq_some.mp hread
    cases hn
    -- the sign says which numeral it is
    unfold sign at hsign
    split at hsign <;> cases hsign
    · exact .minus hds
    · exact .plus hds
    · exact .plain hds
  · intro hcs
    rw [int?_eq]
    cases hcs with
    | plain hds =>
      rw [sign_of_isDigits hds]
      exact if_pos hds
    | plus hds => exact if_pos hds
    | minus hds => exact if_pos hds

theorem not_isBlank_of_isDigit {c : Char} (hc : c.isDigit) : Blank.isBlank c = false := by
  have hrange : 48 ≤ c.toNat ∧ c.toNat ≤ 57 := by
    simpa [Char.isDigit, UInt32.le_iff_toNat_le] using hc
  have hne {k : Nat} (hk : k < 48 ∨ 57 < k) : (c.toNat == k) = false := by
    rw [beq_eq_false_iff_ne]
    omega
  have hlow : (0x9 ≤ c.toNat && c.toNat ≤ 0xd) = false := by
    rw [Bool.and_eq_false_iff, decide_eq_false_iff_not, decide_eq_false_iff_not]
    omega
  have hhigh : (0x2000 ≤ c.toNat && c.toNat ≤ 0x200a) = false := by
    rw [Bool.and_eq_false_iff, decide_eq_false_iff_not, decide_eq_false_iff_not]
    omega
  simp [Blank.isBlank, hlow, hhigh, hne]

theorem Numeral.not_isBlank (hcs : Numeral cs n) : ∀ c ∈ cs, Blank.isBlank c = false := by
  have hdigits {ds : List Char} (hds : IsDigits ds) : ∀ c ∈ ds, Blank.isBlank c = false :=
    fun c hc => not_isBlank_of_isDigit (hds.2 c hc)
  cases hcs with
  | plain hds => exact hdigits hds
  | plus hds | minus hds => exact List.forall_mem_cons.mpr ⟨rfl, hdigits hds⟩

theorem Numeral.ne_nil (hcs : Numeral cs n) : cs ≠ [] := by
  cases hcs with
  | plain hds => exact hds.1
  | plus | minus => exact List.cons_ne_nil _ _

end Reader

/-! ## Blanks -/

namespace Blank

variable {pre cs post : List Char}

/-- A text is what it is without the blanks around it, between blanks. -/
theorem exists_trim (cs : List Char) :
    ∃ pre post, cs = pre ++ trim cs ++ post ∧ (∀ c ∈ pre, isBlank c) ∧ ∀ c ∈ post, isBlank c := by
  let rest := (cs.dropWhile isBlank).reverse
  refine ⟨cs.takeWhile isBlank, (rest.takeWhile isBlank).reverse, ?_, ?_, ?_⟩
  · have hrest : (rest.dropWhile isBlank).reverse ++ (rest.takeWhile isBlank).reverse =
        cs.dropWhile isBlank := by
      rw [← List.reverse_append, List.takeWhile_append_dropWhile, List.reverse_reverse]
    rw [List.append_assoc, trim, hrest, List.takeWhile_append_dropWhile]
  · exact List.all_eq_true.mp List.all_takeWhile
  · exact fun c hc => List.all_eq_true.mp List.all_takeWhile c (List.mem_reverse.mp hc)

theorem dropWhile_append (hpre : ∀ c ∈ pre, isBlank c) (hcs : ∀ c ∈ cs, isBlank c = false) (hne : cs ≠ [])
    (post : List Char) : (pre ++ (cs ++ post)).dropWhile isBlank = cs ++ post := by
  rw [List.dropWhile_append_of_pos hpre]
  cases cs with
  | nil => exact absurd rfl hne
  | cons c cs =>
    rw [List.cons_append, List.dropWhile_cons, hcs c List.mem_cons_self]
    rfl

/-- What has no blanks is what remains of it between blanks. -/
theorem trim_append (hpre : ∀ c ∈ pre, isBlank c) (hpost : ∀ c ∈ post, isBlank c)
    (hcs : ∀ c ∈ cs, isBlank c = false) (hne : cs ≠ []) : trim (pre ++ cs ++ post) = cs := by
  have hback : (post.reverse ++ (cs.reverse ++ [])).dropWhile isBlank = cs.reverse ++ [] :=
    dropWhile_append (fun c hc => hpost c (List.mem_reverse.mp hc))
      (fun c hc => hcs c (List.mem_reverse.mp hc)) (List.reverse_ne_nil_iff.mpr hne) []
  rw [List.append_nil] at hback
  rw [trim, List.append_assoc, dropWhile_append hpre hcs hne, List.reverse_append, hback,
    List.reverse_reverse]

end Blank

/-! ## Reading -/

namespace Heap

variable {h : Heap} {l r v : Value} {ty : TypeKind} {s : String} {m n a b : Int} {op : BinaryOp}

/-- A text reads as a number of a type: but for the blanks around it, it is a numeral for this. -/
def Reads (ty : TypeKind) (s : String) (n : Int) : Prop :=
  ∃ pre cs post, s.toList = pre ++ cs ++ post ∧ (∀ c ∈ pre, Blank.isBlank c) ∧
    (∀ c ∈ post, Blank.isBlank c) ∧ Reader.Numeral cs n ∧ ty.Holds n

theorem reads_iff : Reads ty s n ↔ Reader.int? (Blank.trim s.toList) = some n ∧ ty.Holds n := by
  constructor
  · rintro ⟨pre, cs, post, hs, hpre, hpost, hcs, hn⟩
    rw [hs, Blank.trim_append hpre hpost hcs.not_isBlank hcs.ne_nil]
    exact ⟨Reader.int?_eq_some_iff.mpr hcs, hn⟩
  · rintro ⟨hread, hn⟩
    obtain ⟨pre, post, hs, hpre, hpost⟩ := Blank.exists_trim s.toList
    exact ⟨pre, _, post, hs, hpre, hpost, Reader.int?_eq_some_iff.mp hread, hn⟩

theorem Reads.eq (hm : Reads ty s m) (hn : Reads ty s n) : m = n := by
  have hread := (reads_iff.mp hm).1
  rw [(reads_iff.mp hn).1] at hread
  exact (Option.some.inj hread).symm

theorem integerOf_str (hchar : ty ≠ .char) (s : String) :
    integerOf ty (.str s) =
      match Reader.int? (Blank.trim s.toList) with
      | some n => if ty.Holds n then .ok n else .error (readFailure s ty.text)
      | none => .error (readFailure s ty.text) := by
  have hno : (ty == .char) = false := beq_false_of_ne hchar
  unfold integerOf
  rw [hno]
  rfl

theorem integerOf_of_reads (hchar : ty ≠ .char) (hn : Reads ty s n) : integerOf ty (.str s) = .ok n := by
  obtain ⟨hread, hholds⟩ := reads_iff.mp hn
  rw [integerOf_str hchar, hread]
  exact if_pos hholds

theorem integerOf_of_not_reads (hchar : ty ≠ .char) (hno : ∀ n, ¬ Reads ty s n) :
    integerOf ty (.str s) = .error (readFailure s ty.text) := by
  rw [integerOf_str hchar]
  cases hread : Reader.int? (Blank.trim s.toList) with
  | none => rfl
  | some n => exact if_neg fun hholds => hno n (reads_iff.mpr ⟨hread, hholds⟩)

/-! ## Operators -/

variable {p : Rank}

theorem evaluateBinary_eq_arithmetic (hop : op ∈ [.mul, .div, .mod, .lt, .gt, .ltEq, .gtEq]) (l r : Value) :
    h.evaluateBinary op l r = h.arithmetic op l r := by
  simp only [List.mem_cons, List.not_mem_nil, or_false] at hop
  rcases hop with rfl | rfl | rfl | rfl | rfl | rfl | rfl <;> rfl

/-- On every rung but that of the truth values, operators work on what the operands convert to. -/
theorem arithmetic_eq (hty : p.type.isIntegral) (hbool : p ≠ .bool) (hrank : promote? l r = some p)
    (op : BinaryOp) :
    h.arithmetic op l r =
      checked (do Integer.binary p.type op (← integerOf p.type l) (← integerOf p.type r)) := by
  rw [arithmetic, hrank]
  dsimp only
  rw [operands_of_ne_bool hty hbool]
  simp only [bind_assoc, pure_bind, Operands.binary]

theorem of?_ofInteger (hty : p.type.isIntegral) (hbool : p ≠ .bool) (n : Int) :
    Rank.of? (ofInteger p.type n) = some p := by
  cases p <;> first | rfl | exact absurd rfl hbool | cases hty

theorem integerOf_ofInteger (hty : ty.isIntegral) (hchar : ty ≠ .char) (hn : ty.Holds n) :
    integerOf ty (ofInteger ty n) = .ok n := by
  rw [integerOf_of_integer? (isNumber_ofInteger hty n).number hty hchar, wrap_of_holds hty hn,
    wrap_of_holds hty hn]

theorem promote?_str (hp : Rank.of? v = some p) (s : String) :
    promote? (.str s) v = some p ∧ promote? v (.str s) = some p := by
  have hstr : Rank.of? (.str s) = none := rfl
  constructor
  · simp only [promote?, hstr, hp, if_true]
  · simp only [promote?, hstr, hp, if_true]

theorem isIntegral_of_of? (hv : integer? v = some m) (hp : Rank.of? v = some p) : p.type.isIntegral := by
  obtain ⟨q, hq, hty⟩ := exists_rank hv
  rw [hp] at hq
  cases hq
  exact hty

theorem eq_bool (hp : Rank.of? v = some .bool) : ∃ x, v = .bool x := by
  cases v <;> first | exact ⟨_, rfl⟩ | cases hp

/-- A string that reads as a number beside a value that is no truth value is this number. -/
theorem arithmetic_str (hp : Rank.of? v = some p) (hty : p.type.isIntegral) (hbool : p ≠ .bool)
    (hchar : p.type ≠ .char) (hn : Reads p.type s n) (op : BinaryOp) :
    h.arithmetic op (.str s) v = h.arithmetic op (ofInteger p.type n) v ∧
      h.arithmetic op v (.str s) = h.arithmetic op v (ofInteger p.type n) := by
  have hself : p.general p = p := if_pos le_rfl
  have hof := of?_ofInteger hty hbool n
  have hstr : integerOf p.type (.str s) = integerOf p.type (ofInteger p.type n) := by
    obtain ⟨-, hholds⟩ := reads_iff.mp hn
    rw [integerOf_of_reads hchar hn, integerOf_ofInteger hty hchar hholds]
  obtain ⟨hleft, hright⟩ := promote?_str hp s
  have hleft' : promote? (ofInteger p.type n) v = some p := by simp only [promote?, hof, hp, hself]
  have hright' : promote? v (ofInteger p.type n) = some p := by simp only [promote?, hof, hp, hself]
  constructor
  · rw [arithmetic_eq hty hbool hleft, arithmetic_eq hty hbool hleft', hstr]
  · rw [arithmetic_eq hty hbool hright, arithmetic_eq hty hbool hright', hstr]

/-- A string that reads as no number fails beside a value that is no truth value. -/
theorem arithmetic_str_fails (hv : integer? v = some m) (hp : Rank.of? v = some p)
    (hty : p.type.isIntegral) (hbool : p ≠ .bool) (hchar : p.type ≠ .char) (hno : ∀ n, ¬ Reads p.type s n)
    (op : BinaryOp) :
    h.arithmetic op (.str s) v = .error (.error (readFailure s p.type.text)) ∧
      h.arithmetic op v (.str s) = .error (.error (readFailure s p.type.text)) := by
  obtain ⟨hleft, hright⟩ := promote?_str hp s
  have hvalue := integerOf_of_integer? hv hty hchar
  have hfails := integerOf_of_not_reads hchar hno
  constructor
  · rw [arithmetic_eq hty hbool hleft, hfails]
    rfl
  · rw [arithmetic_eq hty hbool hright, hvalue, hfails]
    rfl

/-- Beside a truth value, a string counts as whether it is empty. -/
theorem arithmetic_str_bool (op : BinaryOp) (s : String) (x : Bool) :
    h.arithmetic op (.str s) (.bool x) = h.arithmetic op (.bool (s != "")) (.bool x) ∧
      h.arithmetic op (.bool x) (.str s) = h.arithmetic op (.bool x) (.bool (s != "")) :=
  ⟨rfl, rfl⟩

theorem arithmetic_true (op : BinaryOp) (x : Bool) :
    h.arithmetic op (.bool true) (.bool x) = h.arithmetic op (.int 1) (.bool x) ∧
      h.arithmetic op (.bool x) (.bool true) = h.arithmetic op (.bool x) (.int 1) := by
  constructor
  · rw [arithmetic_of_promotes rfl rfl ⟨rfl, rfl, rfl⟩, arithmetic_of_promotes rfl rfl ⟨rfl, rfl, rfl⟩]
    rfl
  · rw [arithmetic_of_promotes rfl rfl ⟨rfl, rfl, rfl⟩, arithmetic_of_promotes rfl rfl ⟨rfl, rfl, rfl⟩]
    rfl

theorem Reads.ne_empty (hn : Reads ty s n) : (s != "") = true := by
  rw [bne_iff_ne]
  rintro rfl
  exact nomatch (reads_iff.mp hn).1

end Heap

open Heap

/-- **Strings read as numbers.**  An operator that computes with numbers, but no sum, difference or power,
takes a string that meets a value of an integral type other than char for the number of this type that it
reads as, on either side, and fails where it reads as none.  Beside a truth value this is so of the texts of
one; every other string counts as whether it is empty. -/
theorem strings_read (h : Heap) (op : BinaryOp) (s : String) (v : Value) {p : Rank} {m : Int}
    (hop : op ∈ [.mul, .div, .mod, .lt, .gt, .ltEq, .gtEq]) (hv : integer? v = some m)
    (hp : Rank.of? v = some p) (hchar : p ≠ .char) :
    ((∀ x, v = .bool x → Reads .int s 1) →
      (∀ n, Reads p.type s n →
        h.evaluateBinary op (.str s) v = h.evaluateBinary op (ofInteger p.type n) v ∧
          h.evaluateBinary op v (.str s) = h.evaluateBinary op v (ofInteger p.type n)) ∧
      ((∀ n, ¬ Reads p.type s n) →
        h.evaluateBinary op (.str s) v = .error (.error (readFailure s p.type.text)) ∧
          h.evaluateBinary op v (.str s) = .error (.error (readFailure s p.type.text)))) ∧
    ∀ x, v = .bool x →
      h.evaluateBinary op (.str s) v = h.evaluateBinary op (.bool (s != "")) v ∧
        h.evaluateBinary op v (.str s) = h.evaluateBinary op v (.bool (s != "")) := by
  simp only [evaluateBinary_eq_arithmetic hop]
  refine ⟨fun hone => ?_, ?_⟩
  · by_cases hbool : p = .bool
    · -- the number one is what its text counts as
      subst hbool
      obtain ⟨x, rfl⟩ := eq_bool hp
      have hreads := hone x rfl
      obtain ⟨hleft, hright⟩ := arithmetic_str_bool (h := h) op s x
      rw [hleft, hright, hreads.ne_empty]
      refine ⟨fun n hn => ?_, fun hno => absurd hreads (hno 1)⟩
      obtain rfl := hn.eq hreads
      exact arithmetic_true op x
    · have hty : p.type.isIntegral := isIntegral_of_of? hv hp
      have hchar' : p.type ≠ .char := by
        cases p <;> first | exact absurd rfl hchar | nofun
      exact ⟨fun n hn => arithmetic_str hp hty hbool hchar' hn op,
        fun hno => arithmetic_str_fails hv hp hty hbool hchar' hno op⟩
  · rintro x rfl
    exact arithmetic_str_bool op s x

/-- A numeral with a sign, between blanks, is its number beside a short; what is no numeral fails. -/
theorem strings_read_twelve :
    let h := Heap.empty
    h.evaluateBinary .mul (.str " +12 ") (.short 7) = .ok (.short 84) ∧
      h.evaluateBinary .lt (.int 7) (.str "12a") = .error (.error (readFailure "12a" "int")) := by
  intro h
  have htwelve : Reads .short " +12 " 12 := reads_iff.mpr ⟨by decide, by decide⟩
  have hnone (n : Int) : ¬ Reads .int "12a" n := fun hn => nomatch (reads_iff.mp hn).1
  obtain ⟨hshort, -⟩ := strings_read h .mul " +12 " (.short 7) (by decide) rfl rfl nofun
  obtain ⟨hint, -⟩ := strings_read h .lt "12a" (.int 7) (by decide) rfl rfl nofun
  exact ⟨((hshort nofun).1 12 htwelve).1.trans rfl, ((hint nofun).2 hnone).2⟩

/-- Beside a truth value `5` is one and not five, and what is no number does not fail. -/
theorem strings_beside_truth :
    let h := Heap.empty
    Reads .int "5" 5 ∧ h.evaluateBinary .mul (.str "5") (.bool true) = .ok (.int 1) ∧
      h.evaluateBinary .mul (.int 5) (.bool true) = .ok (.int 5) ∧
      (∀ n, ¬ Reads .int "abc" n) ∧
      h.evaluateBinary .mul (.str "abc") (.bool true) = .ok (.int 1) := by
  have hnone (n : Int) : ¬ Reads .int "abc" n := fun hn => nomatch (reads_iff.mp hn).1
  exact ⟨reads_iff.mpr ⟨by decide, by decide⟩, rfl, rfl, hnone, rfl⟩

end TreeScript
