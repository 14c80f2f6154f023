import Mathlib.Data.Set.Card
import TreeScript.Function.Catalog
import TreeScript.Proofs.Hierarchy.Merging
import TreeScript.Proofs.Histories.Last

/-
# What a catalog knows after a history

A catalog keeps functions in slots, which only grow in number, and an index from keys to slots, which
is rewired when a function is replaced or removed.  For those who ask, it is a plain map from keys to
functions: a key leads to the function that was added under it last, unless it was removed since
(`lookup_after`).  The slots show in one respect only: each addition gets a new one, and a slot gives its
function for good, whatever becomes of the key (`get?_after`).
-/

namespace TreeScript

namespace Table

variable {κ α : Type} [DecidableEq κ] {t : Table κ α}

theorem Distinct.erase (h : t.Distinct) (k : κ) : (t.erase k).Distinct := by
  have hkeys : (t.erase k).keys = t.keys.filter (· ≠ k) := by
    simp only [keys, Table.erase, List.filter_map]
    rfl
  unfold Distinct
  rw [hkeys]
  exact h.filter _

/-- There are as many keys as entries where keys are distinct. -/
theorem Distinct.encard_keys (h : t.Distinct) : {k | (t.find? k).isSome}.encard = t.size := by
  have hkeys : {k | (t.find? k).isSome} = t.keys.toFinset := by
    ext k
    simp only [Set.mem_ofPred_eq, Option.isSome_iff_exists, h.find?_eq_some, List.coe_toFinset, keys,
      List.mem_map, Prod.exists, exists_and_right, exists_eq_right]
  rw [hkeys, Set.encard_coe_eq_coe_finsetCard, List.toFinset_card_of_nodup h]
  simp [keys, size]

end Table

namespace Catalog

/-! ## Histories -/

/-- What is done to a catalog. -/
inductive Change where
  | add (f : Function)
  | remove (name : String) (arity : Arity)

namespace Change

/-- The key that a change is about. -/
def key : Change → String × Arity
  | add f => (f.name, f.arity)
  | remove name arity => (name, arity)

/-- Whether a function is added. -/
def isAddition : Change → Bool
  | add _ => true
  | remove .. => false

/-- The catalog after a change. -/
def apply (c : Catalog) : Change → Catalog
  | add f => (c.add f).2
  | remove name arity => (c.remove name arity).2

end Change

/-- The catalog after a history. -/
def after (changes : List Change) : Catalog := changes.foldl Change.apply empty

/-- A function was added in the course of a history and got a slot. -/
def Added (changes : List Change) (slot : Nat) (f : Function) : Prop :=
  ∃ before later, changes = before ++ .add f :: later ∧ ((after before).add f).1 = slot

/-- A key is live: a function was added under it, into a slot, and the key has neither been removed
since nor been given another function. -/
def Live (changes : List Change) (key : String × Arity) (slot : Nat) (f : Function) : Prop :=
  ∃ before, Last (·.key = key) changes before (.add f) ∧ ((after before).add f).1 = slot

/-- The function for a call: the one that takes just this number of arguments, or, if there is none,
the one that takes any number. -/
def Chosen (changes : List Change) (name : String) (argc : Nat) (slot : Nat) (f : Function) : Prop :=
  Live changes (name, .exact argc) slot f ∨
    (∀ slot f, ¬ Live changes (name, .exact argc) slot f) ∧ Live changes (name, .variadic) slot f

theorem after_concat (changes : List Change) (x : Change) :
    after (changes ++ [x]) = x.apply (after changes) :=
  List.foldl_concat ..

theorem not_live_nil {key : String × Arity} {slot : Nat} {f : Function} : ¬ Live [] key slot f :=
  fun ⟨_, hlast, _⟩ => not_last_nil hlast

/-- A change makes its key live or dead, and leaves the other keys as they were. -/
theorem live_concat {changes : List Change} {x : Change} {key : String × Arity} {slot : Nat}
    {f : Function} :
    Live (changes ++ [x]) key slot f ↔
      (x.key = key ∧ x = .add f ∧ ((after changes).add f).1 = slot) ∨
        (x.key ≠ key ∧ Live changes key slot f) := by
  unfold Live
  constructor
  · rintro ⟨before, hlast, hslot⟩
    rcases last_concat.mp hlast with ⟨hx, rfl, rfl⟩ | ⟨hx, hlast⟩
    · exact Or.inl ⟨hx, rfl, hslot⟩
    · exact Or.inr ⟨hx, before, hlast, hslot⟩
  · rintro (⟨hx, rfl, hslot⟩ | ⟨hx, before, hlast, hslot⟩)
    · exact ⟨changes, last_concat.mpr (Or.inl ⟨hx, rfl, rfl⟩), hslot⟩
    · exact ⟨before, last_concat.mpr (Or.inr ⟨hx, hlast⟩), hslot⟩

/-! ## Slots -/

/-- A change keeps what slots hold. -/
theorem Change.get?_apply {c : Catalog} {slot : Nat} {f : Function} (x : Change)
    (h : c.get? slot = some f) : (x.apply c).get? slot = some f := by
  cases x with
  | add g => exact get?_add g h
  | remove name arity => exact (get?_remove c name arity slot).trans h

theorem get?_after_append {before : List Change} {slot : Nat} {f : Function} (later : List Change)
    (h : (after before).get? slot = some f) : (after (before ++ later)).get? slot = some f := by
  induction later using List.reverseRecOn with
  | nil => rwa [List.append_nil]
  | append_singleton later x ih =>
    rw [← List.append_assoc, after_concat]
    exact x.get?_apply ih

/-- The slot that a function got gives the function for good. -/
theorem get?_after {changes : List Change} {slot : Nat} {f : Function} (h : Added changes slot f) :
    (after changes).get? slot = some f := by
  obtain ⟨before, later, rfl, rfl⟩ := h
  have hadded : (after (before ++ [.add f])).get? ((after before).add f).1 = some f := by
    rw [after_concat]
    exact get?_add_self ..
  rw [List.append_cons]
  exact get?_after_append later hadded

/-- Slots are numbered in the order of additions. -/
theorem slots_after (changes : List Change) :
    (after changes).slots.size = changes.countP (·.isAddition) := by
  induction changes using List.reverseRecOn with
  | nil => rfl
  | append_singleton changes x ih =>
    rw [after_concat, List.countP_append, ← ih]
    cases x with
    | add f => exact Array.size_push f
    | remove name arity =>
      show ((after changes).remove name arity).2.slots.size = _
      unfold remove
      split <;> rfl

/-! ## Keys -/

theorem Live.added {changes : List Change} {key : String × Arity} {slot : Nat} {f : Function}
    (h : Live changes key slot f) : Added changes slot f := by
  obtain ⟨before, ⟨_, later, hsplit, _⟩, hslot⟩ := h
  exact ⟨before, later, hsplit, hslot⟩

/-- A key leads to the slot of the function for which it is live. -/
theorem lookup_after (changes : List Change) (key : String × Arity) (slot : Nat) :
    (after changes).lookup key.1 key.2 = some slot ↔ ∃ f, Live changes key slot f := by
  induction changes using List.reverseRecOn with
  | nil => exact iff_of_false (by simp [after, empty, lookup]) fun ⟨_, h⟩ => not_live_nil h
  | append_singleton changes x ih =>
    simp only [live_concat, after_concat]
    -- the change decides its own key; the other keys are as they were
    cases x with
    | add g =>
      simp only [Change.apply, Change.key, lookup_add]
      by_cases hkey : (g.name, g.arity) = key
      · simp [hkey]
      · simp [hkey, Ne.symm hkey, ih]
    | remove name arity =>
      simp only [Change.apply, Change.key, lookup_remove]
      by_cases hkey : (name, arity) = key
      · simp [hkey]
      · simp [hkey, Ne.symm hkey, ih]

theorem function?_after (changes : List Change) (key : String × Arity) (f : Function) :
    (after changes).function? key.1 key.2 = some f ↔ ∃ slot, Live changes key slot f := by
  unfold function?
  constructor
  · intro h
    obtain ⟨slot, hslot, hf⟩ := Option.bind_eq_some_iff.mp h
    obtain ⟨g, hlive⟩ := (lookup_after changes key slot).mp hslot
    have hfg : some f = some g := hf.symm.trans (get?_after hlive.added)
    cases hfg
    exact ⟨slot, hlive⟩
  · rintro ⟨slot, hlive⟩
    exact Option.bind_eq_some_iff.mpr
      ⟨slot, (lookup_after changes key slot).mpr ⟨f, hlive⟩, get?_after hlive.added⟩

theorem lookup_after_eq_none (changes : List Change) (key : String × Arity) :
    (after changes).lookup key.1 key.2 = none ↔ ∀ slot f, ¬ Live changes key slot f := by
  rw [Option.eq_none_iff_forall_not_mem]
  simp only [Option.mem_def, lookup_after, not_exists]

/-- The slot for a call is the one of the function chosen. -/
theorem resolve_after (changes : List Change) (name : String) (argc slot : Nat) :
    (after changes).resolve name argc = some slot ↔ ∃ f, Chosen changes name argc slot f := by
  have hexact := lookup_after changes (name, .exact argc) slot
  have hnone := lookup_after_eq_none changes (name, .exact argc)
  have hvariadic := lookup_after changes (name, .variadic) slot
  dsimp only at hexact hnone hvariadic
  unfold resolve Chosen
  rw [Option.or_eq_some_iff, hexact, hnone, hvariadic]
  simp only [exists_or, exists_and_left]

theorem Chosen.added {changes : List Change} {name : String} {argc slot : Nat} {f : Function}
    (h : Chosen changes name argc slot f) : Added changes slot f := by
  rcases h with h | ⟨_, h⟩
  · exact h.added
  · exact h.added

theorem callee?_after (changes : List Change) (name : String) (argc slot : Nat) (f : Function) :
    (after changes).callee? name argc = some (slot, f) ↔ Chosen changes name argc slot f := by
  have hcallee : (after changes).callee? name argc = some (slot, f) ↔
      (after changes).resolve name argc = some slot ∧ (after changes).get? slot = some f := by
    simp [callee?, Option.bind_eq_some_iff]
  rw [hcallee, resolve_after]
  constructor
  · rintro ⟨⟨g, hchosen⟩, hf⟩
    have hfg : some f = some g := hf.symm.trans (get?_after hchosen.added)
    cases hfg
    exact hchosen
  · exact fun hchosen => ⟨⟨f, hchosen⟩, get?_after hchosen.added⟩

theorem distinct_after (changes : List Change) : (after changes).index.Distinct := by
  induction changes using List.reverseRecOn with
  | nil => exact Table.distinct_empty
  | append_singleton changes x ih =>
    rw [after_concat]
    cases x with
    | add f => exact ih.insert ..
    | remove name arity =>
      show ((after changes).remove name arity).2.index.Distinct
      unfold remove
      split
      · exact ih.erase _
      · exact ih

/-- The size of a catalog is the number of keys that are live. -/
theorem size_after (changes : List Change) :
    {key | ∃ slot f, Live changes key slot f}.encard = (after changes).size := by
  rw [size, ← (distinct_after changes).encard_keys]
  congr 1
  ext key
  simp only [Set.mem_ofPred_eq, ← lookup_after, Option.isSome_iff_exists]
  rfl

/-! ## The plain map -/

/-- A catalog answers as the history tells which it has behind it. -/
structure Refines (c : Catalog) (changes : List Change) : Prop where
  /-- A key leads to the function for which it is live. -/
  lookup_iff key slot : c.lookup key.1 key.2 = some slot ↔ ∃ f, Live changes key slot f
  function?_iff key f : c.function? key.1 key.2 = some f ↔ ∃ slot, Live changes key slot f
  /-- A call goes to the function of just its number of arguments, else to the one of any number. -/
  resolve_iff name argc slot : c.resolve name argc = some slot ↔ ∃ f, Chosen changes name argc slot f
  callee?_iff name argc slot f : c.callee? name argc = some (slot, f) ↔ Chosen changes name argc slot f
  /-- The size is the number of live keys. -/
  encard_live : {key | ∃ slot f, Live changes key slot f}.encard = c.size
  /-- A slot that an addition gave gives its function for good. -/
  get?_added slot f : Added changes slot f → c.get? slot = some f
  /-- The next addition gets a new slot, by the number of additions so far. -/
  add_gives f : (c.add f).1 = changes.countP (·.isAddition)
  /-- Its function's name and arity lead to this slot then, and the other keys where they did. -/
  add_leads f key slot : (c.add f).2.lookup key.1 key.2 = some slot ↔
    key = (f.name, f.arity) ∧ slot = (c.add f).1 ∨
      key ≠ (f.name, f.arity) ∧ ∃ g, Live changes key slot g
  /-- The next removal gives the function for which the key is live. -/
  remove_gives name arity f :
    (c.remove name arity).1 = some f ↔ ∃ slot, Live changes (name, arity) slot f
  /-- This key leads nowhere then, the other keys where they did, and slots keep their functions. -/
  remove_leads name arity key slot : (c.remove name arity).2.lookup key.1 key.2 = some slot ↔
    key ≠ (name, arity) ∧ ∃ f, Live changes key slot f
  get?_remove name arity slot : (c.remove name arity).2.get? slot = c.get? slot

/-- **A catalog is a plain map from keys to functions**, whatever has been added, replaced, removed
and added again. -/
theorem refines_plain_map (changes : List Change) : (after changes).Refines changes where
  lookup_iff := lookup_after changes
  function?_iff := function?_after changes
  resolve_iff := resolve_after changes
  callee?_iff := callee?_after changes
  encard_live := size_after changes
  get?_added slot f := get?_after
  add_gives f := slots_after changes
  add_leads f key slot := by
    rw [lookup_add]
    by_cases hkey : key = (f.name, f.arity)
    · simp [hkey, eq_comm]
    · simp [hkey, lookup_after]
  remove_gives name arity f := by
    rw [remove_fst]
    exact function?_after changes (name, arity) f
  remove_leads name arity key slot := by
    rw [lookup_remove]
    by_cases hkey : key = (name, arity)
    · simp [hkey]
    · simp [hkey, lookup_after]
  get?_remove name arity slot := get?_remove ..

end Catalog
end TreeScript
