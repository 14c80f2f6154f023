import Mathlib.Data.List.Basic
import Mathlib.Data.List.Induction
import Mathlib.Data.Set.Function
import TreeScript.Interner

/-
# What an interner knows after a history

An interner keeps strings in a list and their numbers in an index.  The two are inverse to each other
(`Consistent`), and interning keeps them so, because a string gets a number only if the index has none for it.

What is in the list is then easily said: the strings of the history in the order in which they first
appeared, after the empty string and the well-known words, and as many of them as there are numbers
(`strings_after`).  The list grows at its end alone, so that a name means for good what it meant when it was
handed out; nor does it matter how early a caller looked for its string before it writes
(`settle_after_look`).  As long as there are numbers for all strings, every string that was interned is in the
list, and two names are the same exactly when their strings are (`names_bijective`).
-/

namespace TreeScript

/-- Going through a list, an item counts where it appears first. -/
theorem eraseDups_concat {α : Type} [DecidableEq α] (l : List α) (a : α) :
    (l ++ [a]).eraseDups = if a ∈ l then l.eraseDups else l.eraseDups ++ [a] := by
  rw [List.eraseDups_append]
  by_cases ha : a ∈ l <;> simp [List.removeAll, ha, List.eraseDups_cons]

namespace Interner

variable {t : Interner} {s u : String} {m n : Nat}

/-! ## Interning -/

/-- Looking for a string before asking to write is a mere shortcut. -/
theorem tryIntern_eq_enter (t : Interner) (s : String) : t.tryIntern s = t.enter s := by
  unfold tryIntern settle
  cases h : t.get? s with
  | some n => rw [enter, h]
  | none => rfl

theorem intern_of_get? (hs : t.get? s = some n) : t.intern s = (n, t) := by
  rw [intern, tryIntern, hs, settle]

theorem intern_of_lt (hs : t.get? s = none) (hroom : t.size < capacity) :
    t.intern s = (t.size, t.push s) := by
  rw [intern, tryIntern_eq_enter, enter, hs]
  simp [hroom]

theorem intern_of_le (hs : t.get? s = none) (hfull : capacity ≤ t.size) :
    t.intern s = (emptyName, t) := by
  rw [intern, tryIntern_eq_enter, enter, hs]
  simp [Nat.not_lt_of_le hfull]

/-- A string has a number, or it gets the next one, or none is left. -/
theorem intern_cases (t : Interner) (s : String) :
    (∃ n, t.get? s = some n ∧ t.intern s = (n, t)) ∨
      (t.get? s = none ∧ t.size < capacity ∧ t.intern s = (t.size, t.push s)) ∨
      (t.get? s = none ∧ capacity ≤ t.size ∧ t.intern s = (emptyName, t)) := by
  cases hs : t.get? s with
  | some n => exact Or.inl ⟨n, rfl, intern_of_get? hs⟩
  | none =>
    rcases Nat.lt_or_ge t.size capacity with hroom | hfull
    · exact Or.inr (Or.inl ⟨rfl, hroom, intern_of_lt hs hroom⟩)
    · exact Or.inr (Or.inr ⟨rfl, hfull, intern_of_le hs hfull⟩)

theorem get?_push (t : Interner) (s u : String) :
    (t.push s).get? u = if u = s then some t.size else t.get? u :=
  Table.find?_insert ..

theorem getElem?_push (t : Interner) (s : String) (n : Nat) :
    (t.push s).strings[n]? = if n = t.size then some s else t.strings[n]? :=
  Array.getElem?_push

theorem lookup_of_le (hn : t.size ≤ n) : t.lookup n = "" := by
  rw [lookup, Array.getD_eq_getD_getElem?, Array.getElem?_eq_none hn]
  rfl

/-- A number is given for good. -/
theorem get?_intern (u : String) (h : t.get? s = some n) : (t.intern u).2.get? s = some n := by
  obtain ⟨m, -, heq⟩ | ⟨hu, -, heq⟩ | ⟨-, -, heq⟩ := t.intern_cases u
  · rwa [heq]
  · have hne : s ≠ u := by
      rintro rfl
      rw [hu] at h
      cases h
    rw [heq, get?_push, if_neg hne, h]
  · rwa [heq]

/-- The name that interning gives is the one that is found afterwards. -/
theorem intern_fst (h : (t.intern s).2.get? s = some n) : (t.intern s).1 = n := by
  obtain ⟨m, hs, heq⟩ | ⟨-, -, heq⟩ | ⟨hs, -, heq⟩ := t.intern_cases s
  · rw [heq] at h ⊢
    exact Option.some.inj (hs.symm.trans h)
  · rw [heq, get?_push, if_pos rfl] at h
    rw [heq]
    exact Option.some.inj h
  · rw [heq, hs] at h
    cases h

/-! ## The index and the list -/

/-- The index finds a number for just the string that has it. -/
def Consistent (t : Interner) : Prop := ∀ s n, t.get? s = some n ↔ t.strings[n]? = some s

namespace Consistent

theorem push (ht : t.Consistent) (hs : t.get? s = none) : (t.push s).Consistent := by
  intro u n
  rw [get?_push, getElem?_push]
  by_cases hn : n = t.size
  · -- the next number is not in the index yet
    have hfresh : t.get? u ≠ some t.size := by
      rw [Ne, ht u, size, Array.getElem?_size]
      exact nofun
    subst hn
    by_cases hu : u = s
    · simp [hu]
    · simp [hu, Ne.symm hu, hfresh]
  · by_cases hu : u = s
    · -- the list does not have the string at another place
      subst hu
      rw [if_pos rfl, if_neg hn, ← ht u n, hs]
      simp [Ne.symm hn]
    · rw [if_neg hu, if_neg hn, ht u n]

theorem intern (ht : t.Consistent) (s : String) : (t.intern s).2.Consistent := by
  obtain ⟨n, -, heq⟩ | ⟨hs, -, heq⟩ | ⟨-, -, heq⟩ := t.intern_cases s
  · rwa [heq]
  · rw [heq]
    exact ht.push hs
  · rwa [heq]

theorem mem_strings (ht : t.Consistent) : s ∈ t.strings.toList ↔ ∃ n, t.get? s = some n := by
  simp only [ht s, Array.mem_toList_iff, Array.mem_iff_getElem?]

/-- A string and its number are found from each other. -/
theorem get?_eq_some (ht : t.Consistent) : t.get? s = some n ↔ n < t.size ∧ t.lookup n = s := by
  rw [ht s n, Array.getElem?_eq_some_iff, size, lookup]
  constructor
  · rintro ⟨hn, heq⟩
    exact ⟨hn, by simp [hn, heq]⟩
  · rintro ⟨hn, heq⟩
    exact ⟨hn, by simpa [hn] using heq⟩

theorem lookup_of_get? (ht : t.Consistent) (h : t.get? s = some n) : t.lookup n = s :=
  (ht.get?_eq_some.mp h).2

theorem get?_lookup (ht : t.Consistent) (hn : n < t.size) : t.get? (t.lookup n) = some n :=
  ht.get?_eq_some.mpr ⟨hn, rfl⟩

/-- Numbers are in bijection with the strings that are found. -/
theorem bijOn_lookup (ht : t.Consistent) :
    Set.BijOn t.lookup {n | n < t.size} {s | ∃ n, t.get? s = some n} := by
  refine ⟨fun n hn => ⟨n, ht.get?_lookup hn⟩, fun m hm n hn heq => ?_, fun s ⟨n, hs⟩ => ?_⟩
  · have hfound : t.get? (t.lookup n) = some m := heq ▸ ht.get?_lookup hm
    exact Option.some.inj (hfound.symm.trans (ht.get?_lookup hn))
  · exact ⟨n, ht.get?_eq_some.mp hs⟩

end Consistent

theorem consistent_blank : blank.Consistent := by
  intro s n
  have hfind : blank.get? s = if s = "" then some emptyName else none := Table.find?_insert ..
  have hget : blank.strings[n]? = if n = emptyName then some "" else none := by
    cases n <;> rfl
  rw [hfind, hget]
  by_cases hs : s = ""
  · subst hs
    by_cases hn : n = emptyName <;> simp [hn, eq_comm]
  · by_cases hn : n = emptyName <;> simp [hs, hn, Ne.symm hs]

/-! ## Strings one after the other -/

/-- The interner after strings were interned, beginning with nothing but the empty string. -/
def internAll (l : List String) : Interner := l.foldl (fun t s => (t.intern s).2) blank

theorem internAll_concat (l : List String) (s : String) :
    internAll (l ++ [s]) = ((internAll l).intern s).2 :=
  List.foldl_concat ..

theorem consistent_internAll (l : List String) : (internAll l).Consistent := by
  induction l using List.reverseRecOn with
  | nil => exact consistent_blank
  | append_singleton l s ih =>
    rw [internAll_concat]
    exact ih.intern s

/-- The strings that have a number are the first to appear, as many as there are numbers. -/
theorem strings_internAll (l : List String) :
    (internAll l).strings.toList = ("" :: l).eraseDups.take capacity := by
  induction l using List.reverseRecOn with
  | nil => exact (List.take_of_length_le (by decide)).symm
  | append_singleton l s ih =>
    have hmem := (consistent_internAll l).mem_strings (s := s)
    have hsize : (internAll l).size = min capacity ("" :: l).eraseDups.length := by
      rw [size, ← Array.length_toList, ih, List.length_take]
    rw [internAll_concat, ← List.cons_append, eraseDups_concat]
    obtain ⟨n, hs, heq⟩ | ⟨hs, hroom, heq⟩ | ⟨-, hfull, heq⟩ := (internAll l).intern_cases s
    · have hs : s ∈ "" :: l := by
        have h := hmem.mpr ⟨n, hs⟩
        rw [ih] at h
        exact List.mem_eraseDups.mp (List.mem_of_mem_take h)
      rw [heq, if_pos hs, ih]
    · -- all that appeared so far has a number, so that the string appears now
      have hall : ("" :: l).eraseDups.length < capacity := by omega
      rw [List.take_of_length_le (Nat.le_of_lt hall)] at ih
      have hs : s ∉ "" :: l := by
        rw [← List.mem_eraseDups, ← ih, hmem, hs]
        exact nofun
      have hnext : (("" :: l).eraseDups ++ [s]).length ≤ capacity := by
        rw [List.length_append]
        exact hall
      rw [heq, if_neg hs, List.take_of_length_le hnext, ← ih]
      exact Array.toList_push
    · -- no number is left, and what appears from now on is cut off
      have hall : capacity ≤ ("" :: l).eraseDups.length := by omega
      rw [heq, ih]
      split
      · rfl
      · exact (List.take_append_of_le_length hall).symm

/-! ## Histories -/

/-- What an interner is asked. -/
inductive Call where
  | intern (s : String)
  | get (s : String)
  | lookup (n : Nat)
  | size

namespace Call

/-- The interner after a call. -/
def apply (t : Interner) : Call → Interner
  | intern s => (t.intern s).2
  | get _ | lookup _ | size => t

/-- The string that is interned. -/
def interned? : Call → Option String
  | intern s => some s
  | get _ | lookup _ | size => none

end Call

/-- The interner after a history. -/
def after (history : List Call) : Interner := history.foldl Call.apply initial

/-- A string is there from the start, or was interned in the course of a history. -/
def Seen (history : List Call) (s : String) : Prop :=
  s = "" ∨ s ∈ wellKnown ∨ .intern s ∈ history

/-- The strings that were seen, in the order in which they first appeared. -/
def words (history : List Call) : List String :=
  ("" :: wellKnown ++ history.filterMap Call.interned?).eraseDups

/-- A string was interned in the course of a history, and this was the name that it got then. -/
def Named (history : List Call) (s : String) (n : Nat) : Prop :=
  ∃ before later, history = before ++ .intern s :: later ∧ ((after before).intern s).1 = n

variable {history before : List Call}

theorem after_concat (history : List Call) (c : Call) :
    after (history ++ [c]) = c.apply (after history) :=
  List.foldl_concat ..

theorem mem_words : s ∈ words history ↔ Seen history s := by
  have hinterned : s ∈ history.filterMap Call.interned? ↔ .intern s ∈ history := by
    rw [List.mem_filterMap]
    constructor
    · rintro ⟨c, hc, hs⟩
      cases c <;> cases hs
      exact hc
    · exact fun hs => ⟨.intern s, hs, rfl⟩
  rw [words, List.mem_eraseDups, List.mem_append, List.mem_cons, hinterned, or_assoc]
  rfl

/-- Words stay where they are when others follow. -/
theorem words_extend (before later : List Call) : words before <+: words (before ++ later) := by
  rw [words, words, List.filterMap_append, ← List.append_assoc]
  exact ⟨_, List.eraseDups_append.symm⟩

/-- Only the strings count that were interned. -/
theorem after_eq_internAll (history : List Call) :
    after history = internAll (wellKnown ++ history.filterMap Call.interned?) := by
  induction history using List.reverseRecOn with
  | nil => rw [List.filterMap_nil, List.append_nil, after, List.foldl_nil, initial, internAll]
  | append_singleton history c ih =>
    rw [after_concat, List.filterMap_append, ← List.append_assoc, ih]
    cases c with
    | intern s => exact (internAll_concat ..).symm
    | get _ | lookup _ | size => exact congrArg internAll (List.append_nil _).symm

/-- Calls that do not intern change nothing. -/
theorem after_filter (history : List Call) :
    after (history.filter (·.interned?.isSome)) = after history := by
  rw [after_eq_internAll, after_eq_internAll, List.filterMap_filter]
  congr 3
  funext c
  cases c <;> rfl

theorem consistent_after (history : List Call) : (after history).Consistent := by
  rw [after_eq_internAll]
  exact consistent_internAll _

/-- The words have the first numbers, as many as there are. -/
theorem strings_after (history : List Call) :
    (after history).strings.toList = (words history).take capacity := by
  rw [after_eq_internAll]
  exact strings_internAll ..

/-- What was found once is found for good. -/
theorem get?_after_append (later : List Call) (h : (after before).get? s = some n) :
    (after (before ++ later)).get? s = some n := by
  induction later using List.reverseRecOn with
  | nil => rwa [List.append_nil]
  | append_singleton later c ih =>
    rw [← List.append_assoc, after_concat]
    cases c with
    | intern u => exact get?_intern u ih
    | get _ | lookup _ | size => exact ih

/-- However early a caller has looked for its string, and whatever was called between this and its writing, it
gets what it would have got had it only come to intern the string then. -/
theorem settle_after_look (before later : List Call) (s : String) :
    (after (before ++ later)).settle ((after before).get? s) s = (after (before ++ later)).tryIntern s := by
  cases h : (after before).get? s with
  | some n => rw [tryIntern, get?_after_append later h]
  | none => exact (tryIntern_eq_enter ..).symm

/-! ## Names for all strings -/

section
variable (hroom : (words history).length ≤ capacity)
include hroom

theorem strings_eq_words : (after history).strings.toList = words history := by
  rw [strings_after, List.take_of_length_le hroom]

/-- The strings that were seen are found. -/
theorem exists_get?_iff : (∃ n, (after history).get? s = some n) ↔ Seen history s := by
  rw [← (consistent_after history).mem_strings, strings_eq_words hroom, mem_words]

/-- A string that was interned is found under the name that it got. -/
theorem get?_of_named (h : Named history s n) : (after history).get? s = some n := by
  obtain ⟨before, later, rfl, rfl⟩ := h
  rw [List.append_cons] at hroom ⊢
  -- the string is found right after it was interned, because there was room then if there is at the end
  have hthen : (words (before ++ [.intern s])).length ≤ capacity :=
    Nat.le_trans (words_extend ..).length_le hroom
  have hseen : Seen (before ++ [.intern s]) s := Or.inr (Or.inr (by simp))
  obtain ⟨n, hn⟩ := (exists_get?_iff hthen).mpr hseen
  have hname : ((after before).intern s).1 = n := by
    rw [after_concat] at hn
    exact intern_fst hn
  rw [hname]
  exact get?_after_append later hn

end

/-! ## Names and strings -/

/-- An interner names the strings of the history which it has behind it. -/
structure Names (t : Interner) (history : List Call) : Prop where
  /-- The strings stand in the order in which they first appeared. -/
  strings_eq : t.strings.toList = words history
  /-- The index is inverse to the list. -/
  numbers_iff s n : t.numbers.find? s = some n ↔ t.strings[n]? = some s
  /-- The numbers that are taken are in bijection with the strings that were seen. -/
  bijOn_lookup : Set.BijOn t.lookup {n | n < t.size} {s | Seen history s}
  get?_iff s n : t.get? s = some n ↔ n < t.size ∧ t.lookup n = s
  get?_eq_none s : t.get? s = none ↔ ¬ Seen history s
  /-- Names are the same exactly when their strings are, whenever they were handed out. -/
  named_eq_iff s u m n : Named history s m → Named history u n → (m = n ↔ s = u)
  /-- A name means the string that it was handed out for, and this is found under it. -/
  lookup_named s n : Named history s n → t.lookup n = s
  get?_named s n : Named history s n → t.get? s = some n
  /-- What a number meant at any time, it means still. -/
  lookup_lasting before later n : history = before ++ later → n < (after before).size →
    n < t.size ∧ t.lookup n = (after before).lookup n
  /-- A string that was seen gets the name under which it is found, and nothing changes. -/
  intern_seen s : Seen history s → ∃ n, t.get? s = some n ∧ t.intern s = (n, t)
  /-- Another one gets the next number, and the others keep theirs. -/
  intern_unseen s : ¬ Seen history s → t.size < capacity →
    (t.intern s).1 = t.size ∧ (t.intern s).2.strings = t.strings.push s ∧
      ∀ u, (t.intern s).2.get? u = if u = s then some t.size else t.get? u
  /-- Calls that do not intern change nothing. -/
  questions : t = after (history.filter (·.interned?.isSome))
  /-- A number that no string has means the empty string. -/
  lookup_outside n : t.size ≤ n → t.lookup n = ""

/-- **Names and strings are in bijection**, whatever was called in whatever order, as long as there are numbers
for all strings. -/
theorem names_bijective (history : List Call) (hroom : (words history).length ≤ capacity) :
    (after history).Names history := by
  have ht := consistent_after history
  -- with numbers for all strings, exactly those that have been interned have one
  have hseen (s : String) : (∃ n, (after history).get? s = some n) ↔ Seen history s :=
    exists_get?_iff hroom
  have hunseen (s : String) : (after history).get? s = none ↔ ¬ Seen history s := by
    rw [← hseen, Option.eq_none_iff_forall_ne_some, not_exists]
  constructor
  case strings_eq => exact strings_eq_words hroom
  case numbers_iff => exact ht
  case bijOn_lookup => simpa only [hseen] using ht.bijOn_lookup
  case get?_iff => exact fun s n => ht.get?_eq_some
  case get?_eq_none => exact hunseen
  case named_eq_iff =>
    intro s u m n hs hu
    have hs := get?_of_named hroom hs
    have hu := get?_of_named hroom hu
    constructor
    · rintro rfl
      exact (ht.lookup_of_get? hs).symm.trans (ht.lookup_of_get? hu)
    · rintro rfl
      exact Option.some.inj (hs.symm.trans hu)
  case lookup_named => exact fun s n h => ht.lookup_of_get? (get?_of_named hroom h)
  case get?_named => exact fun s n h => get?_of_named hroom h
  case lookup_lasting =>
    rintro before later n rfl hn
    have hthen := (consistent_after before).get?_lookup hn
    exact ht.get?_eq_some.mp (get?_after_append later hthen)
  case intern_seen =>
    intro s hs
    obtain ⟨n, hn⟩ := (hseen s).mpr hs
    exact ⟨n, hn, intern_of_get? hn⟩
  case intern_unseen =>
    intro s hs hlt
    rw [intern_of_lt ((hunseen s).mpr hs) hlt]
    exact ⟨rfl, rfl, get?_push (after history) s⟩
  case questions => exact (after_filter history).symm
  case lookup_outside => exact fun n hn => lookup_of_le hn

/-- A new word, one that has a name from the start, and the new one again. -/
def counting : List Call :=
  [.intern "counter", .get "total", .intern "this", .lookup 31, .intern "counter", .size]

/-- The new word gets the first number after those that are taken, and keeps it. -/
theorem names_bijective_counting :
    (words counting).length ≤ capacity ∧ (after counting).Names counting ∧
      Named counting "counter" 31 ∧ (after counting).get? "this" = some 1 ∧
      (after counting).get? "total" = none ∧ (after counting).size = 32 := by
  have hroom : (words counting).length ≤ capacity := by decide +kernel
  exact ⟨hroom, names_bijective counting hroom, ⟨[], _, rfl, by decide +kernel⟩,
    by decide +kernel, by decide +kernel, by decide +kernel⟩

end Interner
end TreeScript
