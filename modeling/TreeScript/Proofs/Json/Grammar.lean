import Mathlib.Data.Rat.Defs
import Mathlib.Tactic.Ring
import TreeScript.Proofs.Integers.Numerals

/-
# The grammar of JSON

A document is a value between blanks.  The grammar below is that of the format, with all the ways it has to
write a value: blanks between tokens, every escape, numbers with fractions and exponents.  What stands for a
value comes first in a text, and the grammar says what is left of the text after it.  No text is a document
of two values (`Document.unique`): nothing but a number can be shorter or longer than it is read, and what
may come after a value goes on no number.
-/

namespace TreeScript

/-- A value of JSON.  Members are in the order in which they are written. -/
inductive Json where
  | null
  | bool (b : Bool)
  | number (q : ℚ)
  | string (s : String)
  | array (items : List Json)
  | object (members : List (String × Json))

namespace Json

open Reader

variable {s s' t t' u u' r r' ds ds' cs cs' : List Char} {c : Char} {j j' : Json} {js js' : List Json}
  {m m' : String × Json} {ms ms' : List (String × Json)}

/-! ## Blanks -/

/-- The characters that may stand between tokens. -/
def IsBlank (c : Char) : Prop := c = ' ' ∨ c = '\t' ∨ c = '\n' ∨ c = '\r'

/-- A text is another one after blanks. -/
inductive Blanks : List Char → List Char → Prop
  | none {r : List Char} : Blanks r r
  | more {c : Char} {s r : List Char} : IsBlank c → Blanks s r → Blanks (c :: s) r

/-- A text begins with no character of a kind. -/
def Avoids (p : Char → Prop) (s : List Char) : Prop := ∀ c ∈ s.head?, ¬ p c

theorem avoids_cons {p : Char → Prop} (hc : ¬ p c) (s : List Char) : Avoids p (c :: s) :=
  fun _ hd => Option.some.inj hd ▸ hc

theorem Blanks.unique (h : Blanks s r) (h' : Blanks s r') (hr : Avoids IsBlank r)
    (hr' : Avoids IsBlank r') : r = r' := by
  induction h with
  | none =>
    cases h' with
    | none => rfl
    | more hc => exact absurd hc (hr _ rfl)
  | more hc _ ih =>
    cases h' with
    | none => exact absurd hc (hr' _ rfl)
    | more _ h' => exact ih h' hr

/-! ## Numbers -/

/-- Digits, at least one. -/
abbrev Digits : Type := { ds : List Char // IsDigits ds }

/-- A power of ten as it is written. -/
@[ext] structure Exponent where
  mark : Char
  sign : List Char
  digits : List Char
  isMark : mark = 'e' ∨ mark = 'E'
  isSign : sign = [] ∨ sign = ['+'] ∨ sign = ['-']
  isDigits : IsDigits digits

/-- A number as it is written. -/
@[ext] structure Numeral where
  negative : Bool
  whole : List Char
  fraction : Option Digits
  exponent : Option Exponent
  isDigits : IsDigits whole
  /-- No zero stands before another digit. -/
  leads : whole.head? = some '0' → whole = ['0']

namespace Exponent

def text (e : Exponent) : List Char := e.mark :: (e.sign ++ e.digits)

def value (e : Exponent) : ℤ := if e.sign = ['-'] then -placeValue e.digits else placeValue e.digits

end Exponent

/-- A sign as it is written. -/
def signText (negative : Bool) : List Char := if negative then ['-'] else []

/-- A fraction as it is written. -/
def fractionText : Option Digits → List Char
  | none => []
  | some ds => '.' :: ds

/-- An exponent as it is written. -/
def exponentText : Option Exponent → List Char
  | none => []
  | some e => e.text

namespace Numeral

def text (n : Numeral) : List Char :=
  signText n.negative ++ (n.whole ++ (fractionText n.fraction ++ exponentText n.exponent))

/-- The number before the exponent, but for its sign. -/
def mantissa (n : Numeral) : ℚ :=
  placeValue n.whole + n.fraction.elim 0 fun ds => placeValue ds / 10 ^ ds.val.length

def value (n : Numeral) : ℚ :=
  (if n.negative then -n.mantissa else n.mantissa) * 10 ^ n.exponent.elim 0 Exponent.value

end Numeral

/-- The characters by which a number may go on. -/
def GoesOn (c : Char) : Prop := c.isDigit ∨ c = '.' ∨ c = 'e' ∨ c = 'E'

theorem Avoids.imp {p q : Char → Prop} (hs : Avoids q s) (hpq : ∀ c, p c → q c) : Avoids p s :=
  fun c hc hp => hs c hc (hpq c hp)

/-- A text has one longest beginning of characters of a kind. -/
theorem append_unique {p : Char → Prop} (ht : ∀ c ∈ t, p c) (ht' : ∀ c ∈ t', p c) (hr : Avoids p r)
    (hr' : Avoids p r') (heq : t ++ r = t' ++ r') : t = t' ∧ r = r' := by
  induction t generalizing t' with
  | nil =>
    cases t' with
    | nil => exact ⟨rfl, heq⟩
    | cons c t' =>
      subst heq
      exact absurd (ht' c List.mem_cons_self) (hr c rfl)
  | cons c t ih =>
    cases t' with
    | nil =>
      subst heq
      exact absurd (ht c List.mem_cons_self) (hr' c rfl)
    | cons c' t' =>
      rw [List.cons_append, List.cons_append] at heq
      obtain ⟨rfl, htail⟩ := List.cons.inj heq
      rw [List.forall_mem_cons] at ht ht'
      obtain ⟨rfl, rfl⟩ := ih ht.2 ht'.2 htail
      exact ⟨rfl, rfl⟩

theorem avoids_of_isDigits {p : Char → Prop} (hds : IsDigits ds) (hp : ∀ c, c.isDigit → ¬ p c)
    (r : List Char) : Avoids p (ds ++ r) := by
  obtain ⟨c, cs, rfl⟩ := List.exists_cons_of_ne_nil hds.1
  exact avoids_cons (hp c (hds.2 c List.mem_cons_self)) _

theorem Avoids.digit (hr : Avoids GoesOn r) : Avoids (·.isDigit) r := hr.imp fun _ => Or.inl

theorem Exponent.unique {e e' : Exponent} (hr : Avoids GoesOn r) (hr' : Avoids GoesOn r')
    (heq : e.text ++ r = e'.text ++ r') : e = e' ∧ r = r' := by
  have hsign (e : Exponent) : ∀ c ∈ e.sign, ¬ c.isDigit := by
    rcases e.isSign with h | h | h <;> rw [h] <;> simp
  have hdigits (e : Exponent) (r : List Char) : Avoids (¬ ·.isDigit) (e.digits ++ r) :=
    avoids_of_isDigits e.isDigits (fun c hc hn => hn hc) r
  rw [text, text, List.cons_append, List.cons_append, List.append_assoc, List.append_assoc] at heq
  obtain ⟨hmark, heq⟩ := List.cons.inj heq
  obtain ⟨hsigns, heq⟩ := append_unique (hsign e) (hsign e') (hdigits e r) (hdigits e' r') heq
  obtain ⟨hdigits, hrest⟩ := append_unique e.isDigits.2 e'.isDigits.2 hr.digit hr'.digit heq
  exact ⟨Exponent.ext hmark hsigns hdigits, hrest⟩

theorem avoids_exponentText {p : Char → Prop} (hp : ∀ c, p c → c.isDigit ∨ c = '.')
    (exponent : Option Exponent) (hr : Avoids GoesOn r) : Avoids p (exponentText exponent ++ r) := by
  cases exponent with
  | none => exact hr.imp fun c hc => (hp c hc).imp_right Or.inl
  | some e =>
    refine avoids_cons (fun hmark => ?_) _
    rcases e.isMark with h | h <;> rw [h] at hmark <;> rcases hp _ hmark with h | h <;> revert h <;> decide

theorem avoids_fractionText (fraction : Option Digits) (exponent : Option Exponent)
    (hr : Avoids GoesOn r) : Avoids (·.isDigit) (fractionText fraction ++ (exponentText exponent ++ r)) := by
  cases fraction with
  | none => exact avoids_exponentText (fun c => Or.inl) exponent hr
  | some ds => exact avoids_cons (by decide) _

theorem exponentText_unique {x x' : Option Exponent} (hr : Avoids GoesOn r) (hr' : Avoids GoesOn r')
    (heq : exponentText x ++ r = exponentText x' ++ r') : x = x' ∧ r = r' := by
  have hmark {e : Exponent} {s s' : List Char} (hs : Avoids GoesOn s) : s ≠ e.text ++ s' := by
    rintro rfl
    exact hs _ rfl (Or.inr (Or.inr e.isMark))
  cases x with
  | none =>
    cases x' with
    | none => exact ⟨rfl, heq⟩
    | some e' => exact absurd heq (hmark hr)
  | some e =>
    cases x' with
    | none => exact absurd heq.symm (hmark hr')
    | some e' =>
      obtain ⟨rfl, hrest⟩ := Exponent.unique hr hr' heq
      exact ⟨rfl, hrest⟩

theorem fractionText_unique {x x' : Option Digits} (hr : Avoids (fun c => c.isDigit ∨ c = '.') r)
    (hr' : Avoids (fun c => c.isDigit ∨ c = '.') r') (heq : fractionText x ++ r = fractionText x' ++ r') :
    x = x' ∧ r = r' := by
  have hpoint {s s' : List Char} (hs : Avoids (fun c => c.isDigit ∨ c = '.') s) : s ≠ '.' :: s' := by
    rintro rfl
    exact hs _ rfl (Or.inr rfl)
  cases x with
  | none =>
    cases x' with
    | none => exact ⟨rfl, heq⟩
    | some ds' => exact absurd heq (hpoint hr)
  | some ds =>
    cases x' with
    | none => exact absurd heq.symm (hpoint hr')
    | some ds' =>
      obtain ⟨hds, hrest⟩ := append_unique ds.2.2 ds'.2.2 (hr.imp fun _ => Or.inl) (hr'.imp fun _ => Or.inl)
        (List.cons.inj heq).2
      exact ⟨congrArg some (Subtype.ext hds), hrest⟩

theorem signText_unique {x x' : Bool} (hds : IsDigits ds) (hds' : IsDigits ds')
    (heq : signText x ++ (ds ++ r) = signText x' ++ (ds' ++ r')) : x = x' ∧ ds ++ r = ds' ++ r' := by
  have hsign (x : Bool) : ∀ c ∈ signText x, ¬ c.isDigit := by
    cases x <;> simp [signText]
  have hdigits {ds : List Char} (hds : IsDigits ds) (r : List Char) : Avoids (¬ ·.isDigit) (ds ++ r) :=
    avoids_of_isDigits hds (fun c hc hn => hn hc) r
  obtain ⟨hsigns, hrest⟩ := append_unique (hsign x) (hsign x') (hdigits hds r) (hdigits hds' r') heq
  refine ⟨?_, hrest⟩
  cases x <;> cases x' <;> first | rfl | cases hsigns

/-- A number ends where it cannot go on. -/
theorem Numeral.unique {n n' : Numeral} (hr : Avoids GoesOn r) (hr' : Avoids GoesOn r')
    (heq : n.text ++ r = n'.text ++ r') : n = n' ∧ r = r' := by
  have hexponent (x : Option Exponent) {r : List Char} (hr : Avoids GoesOn r) :
      Avoids (fun c => c.isDigit ∨ c = '.') (exponentText x ++ r) :=
    avoids_exponentText (fun _ => id) x hr
  simp only [text, List.append_assoc] at heq
  obtain ⟨hsign, heq⟩ := signText_unique n.isDigits n'.isDigits heq
  obtain ⟨hwhole, heq⟩ := append_unique n.isDigits.2 n'.isDigits.2 (avoids_fractionText _ _ hr)
    (avoids_fractionText _ _ hr') heq
  obtain ⟨hfraction, heq⟩ := fractionText_unique (hexponent _ hr) (hexponent _ hr') heq
  obtain ⟨hexp, hrest⟩ := exponentText_unique hr hr' heq
  exact ⟨Numeral.ext hsign hwhole hfraction hexp, hrest⟩

/-! ## Strings -/

/-- The character of an escape that is two characters long. -/
def ofEscape : Char → Option Char
  | '\x22' => some '\x22'
  | '\\' => some '\\'
  | '/' => some '/'
  | 'b' => some '\x08'
  | 'f' => some '\x0c'
  | 'n' => some '\n'
  | 'r' => some '\r'
  | 't' => some '\t'
  | _ => none

/-- The number that a hexadecimal digit is for. -/
def hexDigit? (c : Char) : Option Nat :=
  if c.isDigit then some (c.toNat - '0'.toNat)
  else if 'a' ≤ c ∧ c ≤ 'f' then some (c.toNat - 'a'.toNat + 10)
  else if 'A' ≤ c ∧ c ≤ 'F' then some (c.toNat - 'A'.toNat + 10)
  else none

/-- The number that four hexadecimal digits are for. -/
def codeUnit? (a b c d : Char) : Option Nat :=
  return ((← hexDigit? a) * 16 + (← hexDigit? b)) * 256 + ((← hexDigit? c) * 16 + (← hexDigit? d))

/-- The number of the character that two halves of a pair make. -/
def pairCode (high low : Nat) : Nat := 0x10000 + (high - 0xd800) * 0x400 + (low - 0xdc00)

/-- The characters that stand for themselves in a string. -/
def IsPlain (c : Char) : Prop := c ≠ '\x22' ∧ c ≠ '\\' ∧ 0x20 ≤ c.toNat

/-- A text begins with characters as they are written in a string, and the quote that ends it.  Half of a pair
is no character. -/
inductive Chars : List Char → List Char → List Char → Prop
  | close {r : List Char} : Chars ('\x22' :: r) [] r
  | plain {c : Char} {s cs r : List Char} : IsPlain c → Chars s cs r → Chars (c :: s) (c :: cs) r
  | escape {e c : Char} {s cs r : List Char} :
      ofEscape e = some c → Chars s cs r → Chars ('\\' :: e :: s) (c :: cs) r
  | unit {a b c d : Char} {n : Nat} {s cs r : List Char} :
      codeUnit? a b c d = some n → n < 0xd800 ∨ 0xdfff < n → Chars s cs r →
      Chars ('\\' :: 'u' :: a :: b :: c :: d :: s) (Char.ofNat n :: cs) r
  | pair {a b c d a' b' c' d' : Char} {high low : Nat} {s cs r : List Char} :
      codeUnit? a b c d = some high → 0xd800 ≤ high ∧ high ≤ 0xdbff →
      codeUnit? a' b' c' d' = some low → 0xdc00 ≤ low ∧ low ≤ 0xdfff → Chars s cs r →
      Chars ('\\' :: 'u' :: a :: b :: c :: d :: '\\' :: 'u' :: a' :: b' :: c' :: d' :: s)
        (Char.ofNat (pairCode high low) :: cs) r

theorem Chars.unique (h : Chars s cs r) (h' : Chars s cs' r') : cs = cs' ∧ r = r' := by
  induction h generalizing cs' with
  | close =>
    cases h' with
    | close => exact ⟨rfl, rfl⟩
    | plain hc => exact absurd rfl hc.1
  | plain hc _ ih =>
    cases h' with
    | close => exact absurd rfl hc.1
    | plain _ h' =>
      obtain ⟨rfl, rfl⟩ := ih h'
      exact ⟨rfl, rfl⟩
    | escape | unit | pair => exact absurd rfl hc.2.1
  | escape hc _ ih =>
    cases h' with
    | plain hc' => exact absurd rfl hc'.2.1
    | escape hc' h' =>
      rw [hc] at hc'
      obtain ⟨rfl, rfl⟩ := ih h'
      exact ⟨congrArg (· :: _) (Option.some.inj hc'), rfl⟩
    | unit | pair => cases hc
  | unit hn hvalid _ ih =>
    -- the first half of a pair is no character by itself, so that no unit can begin a pair as well
    cases h' with
    | plain hc' => exact absurd rfl hc'.2.1
    | escape hc' => cases hc'
    | unit hn' _ h' =>
      rw [hn] at hn'
      cases hn'
      obtain ⟨rfl, rfl⟩ := ih h'
      exact ⟨rfl, rfl⟩
    | pair hn' hhigh =>
      rw [hn] at hn'
      cases hn'
      omega
  | pair hn hhigh hlow _ _ ih =>
    cases h' with
    | plain hc' => exact absurd rfl hc'.2.1
    | escape hc' => cases hc'
    | unit hn' hvalid =>
      rw [hn] at hn'
      cases hn'
      omega
    | pair hn' _ hlow' _ h' =>
      rw [hn] at hn'
      cases hn'
      rw [hlow] at hlow'
      cases hlow'
      obtain ⟨rfl, rfl⟩ := ih h'
      exact ⟨rfl, rfl⟩

/-! ## Values -/

mutual

/-- A text begins with a value. -/
inductive Value : List Char → Json → List Char → Prop
  | null {r : List Char} : Value ('n' :: 'u' :: 'l' :: 'l' :: r) .null r
  | yes {r : List Char} : Value ('t' :: 'r' :: 'u' :: 'e' :: r) (.bool true) r
  | no {r : List Char} : Value ('f' :: 'a' :: 'l' :: 's' :: 'e' :: r) (.bool false) r
  | number {s r : List Char} (n : Numeral) : s = n.text ++ r → Value s (.number n.value) r
  | string {s cs r : List Char} : Chars s cs r → Value ('\x22' :: s) (.string (String.ofList cs)) r
  | noItems {s r : List Char} : Blanks s (']' :: r) → Value ('[' :: s) (.array []) r
  | items {s r : List Char} {js : List Json} : Items s js r → Value ('[' :: s) (.array js) r
  | noMembers {s r : List Char} : Blanks s ('\x7d' :: r) → Value ('\x7b' :: s) (.object []) r
  | members {s r : List Char} {ms : List (String × Json)} :
      Members s ms r → Value ('\x7b' :: s) (.object ms) r

/-- A text begins with a value between blanks. -/
inductive Element : List Char → Json → List Char → Prop
  | mk {s t u r : List Char} {j : Json} : Blanks s t → Value t j u → Blanks u r → Element s j r

/-- A text begins with elements and the bracket that ends them. -/
inductive Items : List Char → List Json → List Char → Prop
  | last {s r : List Char} {j : Json} : Element s j (']' :: r) → Items s [j] r
  | more {s t r : List Char} {j : Json} {js : List Json} :
      Element s j (',' :: t) → Items t js r → Items s (j :: js) r

/-- A text begins with a name and an element. -/
inductive Member : List Char → String × Json → List Char → Prop
  | mk {s t u v r cs : List Char} {j : Json} :
      Blanks s ('\x22' :: t) → Chars t cs u → Blanks u (':' :: v) → Element v j r →
      Member s (String.ofList cs, j) r

/-- A text begins with members and the brace that ends them. -/
inductive Members : List Char → List (String × Json) → List Char → Prop
  | last {s r : List Char} {m : String × Json} : Member s m ('\x7d' :: r) → Members s [m] r
  | more {s t r : List Char} {m : String × Json} {ms : List (String × Json)} :
      Member s m (',' :: t) → Members t ms r → Members s (m :: ms) r

end

/-- The texts that are documents, and the values that they are of. -/
def Document (s : List Char) (j : Json) : Prop := Element s j []

/-! ## One value for a text -/

/-- The characters that values begin with. -/
def Begins (c : Char) : Prop :=
  c.isDigit ∨ c = '-' ∨ c = 'n' ∨ c = 't' ∨ c = 'f' ∨ c = '\x22' ∨ c = '[' ∨ c = '\x7b'

/-- The characters that follow elements. -/
def Closes (c : Char) : Prop := c = ',' ∨ c = ']' ∨ c = '\x7d'

theorem Begins.not_isBlank (hc : Begins c) : ¬ IsBlank c := by
  rintro (rfl | rfl | rfl | rfl) <;> revert hc <;> unfold Begins <;> decide

theorem Begins.not_closes (hc : Begins c) : ¬ Closes c := by
  rintro (rfl | rfl | rfl) <;> revert hc <;> unfold Begins <;> decide

theorem Closes.not_isBlank (hc : Closes c) : ¬ IsBlank c := by
  rcases hc with rfl | rfl | rfl <;> unfold IsBlank <;> decide

theorem Closes.not_goesOn (hc : Closes c) : ¬ GoesOn c := by
  rcases hc with rfl | rfl | rfl <;> unfold GoesOn <;> decide

theorem IsBlank.not_goesOn (hc : IsBlank c) : ¬ GoesOn c := by
  rcases hc with rfl | rfl | rfl | rfl <;> unfold GoesOn <;> decide

theorem Numeral.begins (n : Numeral) (r : List Char) :
    ∃ c t, n.text ++ r = c :: t ∧ (c.isDigit ∨ c = '-') := by
  obtain ⟨c, cs, hds⟩ := List.exists_cons_of_ne_nil n.isDigits.1
  have hc : c.isDigit := n.isDigits.2 c (hds ▸ List.mem_cons_self)
  rw [text, hds]
  cases n.negative with
  | false => exact ⟨c, _, rfl, Or.inl hc⟩
  | true => exact ⟨'-', _, rfl, Or.inr rfl⟩

theorem ne_numeral (hc : ¬ (c.isDigit ∨ c = '-')) (n : Numeral) : c :: s ≠ n.text ++ r := by
  obtain ⟨c', t, htext, hc'⟩ := n.begins r
  rw [htext]
  intro heq
  exact hc ((List.cons.inj heq).1 ▸ hc')

theorem Value.begins (h : Value s j r) : ∃ c t, s = c :: t ∧ Begins c := by
  cases h with
  | number n hs =>
    obtain ⟨c, t, htext, hc⟩ := n.begins r
    exact ⟨c, t, hs.trans htext, hc.imp_right Or.inl⟩
  | _ => exact ⟨_, _, rfl, by unfold Begins; decide⟩

theorem Value.avoids {p : Char → Prop} (h : Value s j r) (hp : ∀ c, Begins c → ¬ p c) : Avoids p s := by
  obtain ⟨c, t, rfl, hc⟩ := h.begins
  exact avoids_cons (hp c hc) t

theorem Blanks.avoids {p : Char → Prop} (h : Blanks s r) (hr : Avoids p r) (hp : ∀ c, IsBlank c → ¬ p c) :
    Avoids p s := by
  cases h with
  | none => exact hr
  | more hc => exact avoids_cons (hp _ hc) _

/-- A text is at its end, or begins with a character that follows elements. -/
def Closed (s : List Char) : Prop := ∀ c ∈ s.head?, Closes c

theorem closed_cons (hc : Closes c) (s : List Char) : Closed (c :: s) := fun _ hd => Option.some.inj hd ▸ hc

theorem closed_comma (s : List Char) : Closed (',' :: s) := closed_cons (Or.inl rfl) s

theorem closed_bracket (s : List Char) : Closed (']' :: s) := closed_cons (Or.inr (Or.inl rfl)) s

theorem closed_brace (s : List Char) : Closed ('\x7d' :: s) := closed_cons (Or.inr (Or.inr rfl)) s

theorem Closed.avoids {p : Char → Prop} (hs : Closed s) (hp : ∀ c, Closes c → ¬ p c) : Avoids p s :=
  fun c hc => hp c (hs c hc)

/-- A single character after blanks is found in one way. -/
theorem Blanks.unique_cons (h : Blanks s (c :: r)) (h' : Blanks s (c :: r')) (hc : ¬ IsBlank c) : r = r' :=
  (List.cons.inj (h.unique h' (avoids_cons hc r) (avoids_cons hc r'))).2

/-- Nothing closes where an element begins. -/
theorem Element.not_blanks (h : Element s j r) (hc : Closes c) : ¬ Blanks s (c :: t) := by
  intro hs
  obtain ⟨hbefore, hvalue, -⟩ := h
  have heq := hbefore.unique hs (hvalue.avoids fun _ => Begins.not_isBlank) (avoids_cons hc.not_isBlank t)
  exact hvalue.avoids (fun _ => Begins.not_closes) c (heq ▸ rfl) hc

theorem Items.not_blanks (h : Items s js r) : ¬ Blanks s (']' :: t) := by
  cases h with
  | last h | more h => exact h.not_blanks (Or.inr (Or.inl rfl))

theorem not_isBlank_quote : ¬ IsBlank '\x22' := by unfold IsBlank; decide

theorem not_isBlank_colon : ¬ IsBlank ':' := by unfold IsBlank; decide

theorem not_isBlank_bracket : ¬ IsBlank ']' := by unfold IsBlank; decide

theorem not_isBlank_brace : ¬ IsBlank '\x7d' := by unfold IsBlank; decide

theorem Member.not_blanks (h : Member s m r) : ¬ Blanks s ('\x7d' :: t) := by
  intro hs
  obtain ⟨hbefore, -, -, -⟩ := h
  exact nomatch hbefore.unique hs (avoids_cons not_isBlank_quote _) (avoids_cons not_isBlank_brace _)

theorem Members.not_blanks (h : Members s ms r) : ¬ Blanks s ('\x7d' :: t) := by
  cases h with
  | last h | more h => exact h.not_blanks

mutual

theorem Value.unique : ∀ {s r r' : List Char} {j j' : Json}, Value s j r → Value s j' r' →
    Avoids GoesOn r → Avoids GoesOn r' → j = j' ∧ r = r'
  -- a form is known by its first character, with which no numeral begins
  | _, _, _, _, _, .null, h', _, _ => by
    cases h' with
    | null => exact ⟨rfl, rfl⟩
    | number n hs => exact absurd hs (ne_numeral (by decide) n)
  | _, _, _, _, _, .yes, h', _, _ => by
    cases h' with
    | yes => exact ⟨rfl, rfl⟩
    | number n hs => exact absurd hs (ne_numeral (by decide) n)
  | _, _, _, _, _, .no, h', _, _ => by
    cases h' with
    | no => exact ⟨rfl, rfl⟩
    | number n hs => exact absurd hs (ne_numeral (by decide) n)
  | _, _, _, _, _, .number n hs, h', hr, hr' => by
    cases h' with
    | number n' hs' =>
      obtain ⟨rfl, rfl⟩ := Numeral.unique hr hr' (hs.symm.trans hs')
      exact ⟨rfl, rfl⟩
    | _ => exact absurd hs (ne_numeral (by decide) n)
  | _, _, _, _, _, .string h, h', _, _ => by
    cases h' with
    | string h' =>
      obtain ⟨rfl, rfl⟩ := h.unique h'
      exact ⟨rfl, rfl⟩
    | number n hs => exact absurd hs (ne_numeral (by decide) n)
  | _, _, _, _, _, .noItems h, h', _, _ => by
    cases h' with
    | noItems h' => exact ⟨rfl, h.unique_cons h' not_isBlank_bracket⟩
    | items h' => exact absurd h h'.not_blanks
    | number n hs => exact absurd hs (ne_numeral (by decide) n)
  | _, _, _, _, _, .items h, h', _, _ => by
    cases h' with
    | noItems h' => exact absurd h' h.not_blanks
    | items h' =>
      obtain ⟨rfl, rfl⟩ := Items.unique h h'
      exact ⟨rfl, rfl⟩
    | number n hs => exact absurd hs (ne_numeral (by decide) n)
  | _, _, _, _, _, .noMembers h, h', _, _ => by
    cases h' with
    | noMembers h' => exact ⟨rfl, h.unique_cons h' not_isBlank_brace⟩
    | members h' => exact absurd h h'.not_blanks
    | number n hs => exact absurd hs (ne_numeral (by decide) n)
  | _, _, _, _, _, .members h, h', _, _ => by
    cases h' with
    | noMembers h' => exact absurd h' h.not_blanks
    | members h' =>
      obtain ⟨rfl, rfl⟩ := Members.unique h h'
      exact ⟨rfl, rfl⟩
    | number n hs => exact absurd hs (ne_numeral (by decide) n)

theorem Element.unique : ∀ {s r r' : List Char} {j j' : Json}, Element s j r → Element s j' r' →
    Closed r → Closed r' → j = j' ∧ r = r'
  | _, _, _, _, _, .mk hbefore hvalue hafter, .mk hbefore' hvalue' hafter', hr, hr' => by
    have hgoes {r u : List Char} (hr : Closed r) (hafter : Blanks u r) : Avoids GoesOn u :=
      hafter.avoids (hr.avoids fun _ => Closes.not_goesOn) fun _ => IsBlank.not_goesOn
    obtain rfl := hbefore.unique hbefore' (hvalue.avoids fun _ => Begins.not_isBlank)
      (hvalue'.avoids fun _ => Begins.not_isBlank)
    obtain ⟨rfl, rfl⟩ := Value.unique hvalue hvalue' (hgoes hr hafter) (hgoes hr' hafter')
    exact ⟨rfl, hafter.unique hafter' (hr.avoids fun _ => Closes.not_isBlank)
      (hr'.avoids fun _ => Closes.not_isBlank)⟩

theorem Items.unique : ∀ {s r r' : List Char} {js js' : List Json}, Items s js r → Items s js' r' →
    js = js' ∧ r = r'
  | _, _, _, _, _, .last h, .last h' => by
    obtain ⟨rfl, heq⟩ := Element.unique h h' (closed_bracket _) (closed_bracket _)
    exact ⟨rfl, (List.cons.inj heq).2⟩
  | _, _, _, _, _, .last h, .more h' _ => nomatch (Element.unique h h' (closed_bracket _) (closed_comma _)).2
  | _, _, _, _, _, .more h _, .last h' => nomatch (Element.unique h h' (closed_comma _) (closed_bracket _)).2
  | _, _, _, _, _, .more h hmore, .more h' hmore' => by
    obtain ⟨rfl, heq⟩ := Element.unique h h' (closed_comma _) (closed_comma _)
    cases heq
    obtain ⟨rfl, rfl⟩ := Items.unique hmore hmore'
    exact ⟨rfl, rfl⟩

theorem Member.unique : ∀ {s r r' : List Char} {m m' : String × Json}, Member s m r → Member s m' r' →
    Closed r → Closed r' → m = m' ∧ r = r'
  | _, _, _, _, _, .mk hquote hname hcolon h, .mk hquote' hname' hcolon' h', hr, hr' => by
    obtain rfl := hquote.unique_cons hquote' not_isBlank_quote
    obtain ⟨rfl, rfl⟩ := hname.unique hname'
    obtain rfl := hcolon.unique_cons hcolon' not_isBlank_colon
    obtain ⟨rfl, rfl⟩ := Element.unique h h' hr hr'
    exact ⟨rfl, rfl⟩

theorem Members.unique : ∀ {s r r' : List Char} {ms ms' : List (String × Json)}, Members s ms r →
    Members s ms' r' → ms = ms' ∧ r = r'
  | _, _, _, _, _, .last h, .last h' => by
    obtain ⟨rfl, heq⟩ := Member.unique h h' (closed_brace _) (closed_brace _)
    exact ⟨rfl, (List.cons.inj heq).2⟩
  | _, _, _, _, _, .last h, .more h' _ => nomatch (Member.unique h h' (closed_brace _) (closed_comma _)).2
  | _, _, _, _, _, .more h _, .last h' => nomatch (Member.unique h h' (closed_comma _) (closed_brace _)).2
  | _, _, _, _, _, .more h hmore, .more h' hmore' => by
    obtain ⟨rfl, heq⟩ := Member.unique h h' (closed_comma _) (closed_comma _)
    cases heq
    obtain ⟨rfl, rfl⟩ := Members.unique hmore hmore'
    exact ⟨rfl, rfl⟩

end

/-- A text is a document of one value at most. -/
theorem Document.unique (h : Document s j) (h' : Document s j') : j = j' :=
  (Element.unique h h' nofun nofun).1

end Json
end TreeScript
