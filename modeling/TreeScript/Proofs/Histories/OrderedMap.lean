import Mathlib.Data.List.Nodup
import TreeScript.Proofs.Histories.Last
import TreeScript.Value.OrderedMap

/-
# What an ordered map holds after a history

An ordered map keeps its entries in a list and the places of their keys in an index.  The two are kept in
step: the index finds a key at a place exactly when the entry there has this key (`Consistent`).  Taking
a key out is where this could fail, because the last entry moves into the gap, and its key has to be
placed anew, unless it is the entry taken out that was the last one.

From this follows what the map answers, whatever has been done to it: the value of a key is the one that
was inserted last, unless the key was removed since (`find?_after`).  Asking changes nothing, and a map that
is collected from entries has them inserted one after the other, so that insertions and removals are all
there is to a history.
-/

namespace TreeScript
namespace OrderedMap

/-! ## Changes -/

/-- What is done to a map. -/
inductive Change where
  | insert (k v : Value)
  | remove (k : Value)

namespace Change

/-- The key that a change is about. -/
def key : Change → MapKey
  | insert k _ => .of k
  | remove k => .of k

/-- The map after a change. -/
def apply (m : OrderedMap) : Change → OrderedMap
  | insert k v => m.insert k v
  | remove k => m.erase k

/-- An entry that a map is collected from is inserted. -/
def ofEntry (e : Value × Value) : Change := insert e.1 e.2

end Change

/-- The map after a history. -/
def after (history : List Change) : OrderedMap := history.foldl Change.apply empty

/-- A value was inserted under a key, and since then the key has neither been removed nor been given
another value. -/
def Current (history : List Change) (key : MapKey) (v : Value) : Prop :=
  ∃ before k, Last (·.key = key) history before (.insert k v)

variable {m : OrderedMap} {entries : List (Value × Value)} {i j : Nat} {key : MapKey}
  {k k' v w old : Value}

/-! ## Entries -/

/-- The entry at a place has a key and a value. -/
def Holds (entries : List (Value × Value)) (i : Nat) (key : MapKey) (v : Value) : Prop :=
  ∃ k, entries[i]? = some (k, v) ∧ MapKey.of k = key

theorem Holds.lt (h : Holds entries i key v) : i < entries.length := by
  obtain ⟨_, hentry, _⟩ := h
  exact (List.getElem?_eq_some_iff.mp hentry).1

theorem holds_iff_of_getElem? (hentry : entries[i]? = some (k, old)) :
    Holds entries i key v ↔ MapKey.of k = key ∧ old = v := by
  simp [Holds, hentry, and_comm]

theorem holds_concat :
    Holds (entries ++ [(k, v)]) i key w ↔
      Holds entries i key w ∨ (i = entries.length ∧ MapKey.of k = key ∧ v = w) := by
  rcases Nat.lt_trichotomy i entries.length with hlt | rfl | hgt
  · simp [Holds, List.getElem?_append_left hlt, Nat.ne_of_lt hlt]
  · simp [Holds, and_comm]
  · have hout : (entries ++ [(k, v)])[i]? = none :=
      List.getElem?_eq_none (by rw [List.length_append]; exact hgt)
    simp [Holds, hout, List.getElem?_eq_none (Nat.le_of_lt hgt), Nat.ne_of_gt hgt]

theorem holds_set (hentry : entries[i]? = some (k, old)) :
    Holds (entries.set i (k, v)) j key w ↔
      (j = i ∧ MapKey.of k = key ∧ v = w) ∨ (j ≠ i ∧ Holds entries j key w) := by
  have hi : i < entries.length := (List.getElem?_eq_some_iff.mp hentry).1
  by_cases hj : j = i
  · subst hj
    rw [holds_iff_of_getElem? (List.getElem?_set_self hi)]
    simp
  · simp [Holds, List.getElem?_set_ne (Ne.symm hj), hj]

theorem eraseAt_concat (front : List (Value × Value)) (last : Value × Value) (i : Nat) :
    eraseAt (front ++ [last]) i = if i = front.length then front else front.set i last := by
  simp [eraseAt]

theorem length_eraseAt (hi : i < entries.length) : (eraseAt entries i).length + 1 = entries.length := by
  rcases List.eq_nil_or_concat entries with rfl | ⟨front, last, rfl⟩
  · exact absurd hi (Nat.not_lt_zero i)
  · rw [List.concat_eq_append, eraseAt_concat]
    split <;> simp

/-- What is where after the last entry has moved into the place of another. -/
theorem getElem?_eraseAt (hi : i < entries.length) :
    (eraseAt entries i)[j]? =
      if j + 1 < entries.length then (if j = i then entries.getLast? else entries[j]?) else none := by
  have hlength := length_eraseAt hi
  by_cases hj : j + 1 < entries.length
  · rw [if_pos hj]
    rcases List.eq_nil_or_concat entries with rfl | ⟨front, last, rfl⟩
    · exact absurd hi (Nat.not_lt_zero i)
    · rw [List.concat_eq_append, List.length_append, List.length_singleton] at hi hj
      rw [List.concat_eq_append, eraseAt_concat, List.getLast?_concat,
        List.getElem?_append_left (Nat.lt_of_succ_lt_succ hj)]
      by_cases hlast : i = front.length
      · rw [if_pos hlast, if_neg (by omega)]
      · rw [if_neg hlast, List.getElem?_set]
        grind
  · rw [if_neg hj, List.getElem?_eq_none (by omega)]

theorem holds_eraseAt (hi : i < entries.length) :
    Holds (eraseAt entries i) j key v ↔
      j + 1 < entries.length ∧
        if j = i then Holds entries (entries.length - 1) key v else Holds entries j key v := by
  unfold Holds
  rw [getElem?_eraseAt hi, List.getLast?_eq_getElem?]
  by_cases hlt : j + 1 < entries.length
  · rw [if_pos hlt]
    by_cases hj : j = i
    · simp only [hlt, if_pos hj, true_and]
    · simp only [hlt, if_neg hj, true_and]
  · simp [hlt]

/-- The entries that are left are the others. -/
theorem exists_holds_eraseAt (hi : i < entries.length) :
    (∃ j, Holds (eraseAt entries i) j key v) ↔ ∃ j, j ≠ i ∧ Holds entries j key v := by
  simp only [holds_eraseAt hi]
  constructor
  · rintro ⟨j, hlt, h⟩
    split at h
    · exact ⟨entries.length - 1, by omega, h⟩
    · exact ⟨j, ‹_›, h⟩
  · rintro ⟨j, hj, h⟩
    have hlt := h.lt
    by_cases hlast : j + 1 = entries.length
    · -- the last entry has moved
      refine ⟨i, by omega, ?_⟩
      rw [if_pos rfl, ← hlast]
      exact h
    · refine ⟨j, by omega, ?_⟩
      rw [if_neg hj]
      exact h

/-- What an index finds in which the key at a place has been placed anew. -/
theorem find?_reindex (index : Table MapKey Nat) :
    (reindex index entries i).find? key = some j ↔
      (j = i ∧ ∃ v, Holds entries i key v) ∨
        ((∀ v, ¬ Holds entries i key v) ∧ index.find? key = some j) := by
  unfold reindex
  cases hentry : entries[i]? with
  | none => simp [Holds, hentry]
  | some e =>
    obtain ⟨k, v⟩ := e
    simp only [Table.find?_insert, holds_iff_of_getElem? hentry]
    by_cases hkey : key = .of k
    · simp [hkey, eq_comm]
    · simp [hkey, Ne.symm hkey]

/-- A key is absent, or an entry has it. -/
theorem absent_or_present (m : OrderedMap) (k : Value) :
    (∀ i v, ¬ Holds m.entries i (.of k) v) ∨
      ∃ (i : Nat) (k' old : Value), m.entries[i]? = some (k', old) ∧ MapKey.of k' = .of k := by
  by_cases h : ∃ i v, Holds m.entries i (.of k) v
  · obtain ⟨i, old, k', hentry, hkey⟩ := h
    exact Or.inr ⟨i, k', old, hentry, hkey⟩
  · exact Or.inl fun i v hv => h ⟨i, v, hv⟩

/-! ## The index -/

/-- The index finds just the entries that have a key. -/
def Consistent (m : OrderedMap) : Prop :=
  ∀ key i, m.index.find? key = some i ↔ ∃ v, Holds m.entries i key v

namespace Consistent

/-- A key has one place. -/
theorem unique (hm : m.Consistent) (h : Holds m.entries i key v) (h' : Holds m.entries j key w) :
    i = j :=
  Option.some.inj (((hm key i).mpr ⟨v, h⟩).symm.trans ((hm key j).mpr ⟨w, h'⟩))

theorem place_iff (hm : m.Consistent) (hentry : m.entries[i]? = some (k, old))
    (h : Holds m.entries j key v) : j = i ↔ MapKey.of k = key := by
  constructor
  · rintro rfl
    exact ((holds_iff_of_getElem? hentry).mp h).1
  · intro hkey
    exact hm.unique h ⟨k, hentry, hkey⟩

theorem position?_eq_none (hm : m.Consistent) :
    m.position? k = none ↔ ∀ i v, ¬ Holds m.entries i (.of k) v := by
  rw [Option.eq_none_iff_forall_not_mem]
  simp only [Option.mem_def, position?, hm (.of k), not_exists]

/-- The place of a key is a place of the entries. -/
theorem entry?_eq_some (hm : m.Consistent) :
    m.entry? k = some (i, k', v) ↔ m.entries[i]? = some (k', v) ∧ MapKey.of k' = .of k := by
  have hposition : m.position? k = some i ↔ ∃ v, Holds m.entries i (.of k) v := hm (.of k) i
  have hentry : m.entry? k = some (i, k', v) ↔
      m.position? k = some i ∧ m.entries[i]? = some (k', v) := by
    unfold entry?
    simp [Option.bind_eq_some_iff]
  rw [hentry, hposition, and_comm]
  refine and_congr_right fun hentry => ?_
  simp [holds_iff_of_getElem? hentry]

theorem entry?_eq_none (hm : m.Consistent) :
    m.entry? k = none ↔ ∀ i v, ¬ Holds m.entries i (.of k) v := by
  rw [Option.eq_none_iff_forall_not_mem]
  simp only [Option.mem_def, Prod.forall, hm.entry?_eq_some, Holds]
  grind

theorem find?_eq_some (hm : m.Consistent) :
    m.find? k = some v ↔ ∃ i, Holds m.entries i (.of k) v := by
  unfold find? Holds
  simp only [Option.map_eq_some_iff, Prod.exists, hm.entry?_eq_some]
  grind

theorem contains_iff (hm : m.Consistent) : m.contains k = true ↔ ∃ v, m.find? k = some v := by
  simp only [contains, Table.contains, Option.isSome_iff_exists, hm (.of k), hm.find?_eq_some]
  exact exists_comm

/-! ### Giving a key a value -/

theorem insert (hm : m.Consistent) (k v : Value) : (m.insert k v).Consistent := by
  cases hentry : m.entry? k with
  | some e =>
    obtain ⟨i, k', old⟩ := e
    obtain ⟨hold, hkey⟩ := hm.entry?_eq_some.mp hentry
    intro key j
    simp only [OrderedMap.insert, exchange, hentry, hm key j, holds_set hold]
    by_cases hj : j = i
    · subst hj
      simp [holds_iff_of_getElem? hold]
    · simp [hj]
  | none =>
    intro key j
    simp only [OrderedMap.insert, exchange, hentry, Table.find?_insert, holds_concat]
    by_cases hkey : key = .of k
    · subst hkey
      have hnone := hm.entry?_eq_none.mp hentry
      simp [hnone, eq_comm]
    · simp [hkey, Ne.symm hkey, hm key j]

/-- The key has the value now, the other keys have what they had. -/
theorem find?_insert (hm : m.Consistent) (k k' v : Value) :
    (m.insert k v).find? k' = if MapKey.of k = .of k' then some v else m.find? k' := by
  refine Option.ext fun w => ?_
  rw [(hm.insert k v).find?_eq_some]
  cases hentry : m.entry? k with
  -- the entry of the key is exchanged for another at its place
  | some e =>
    obtain ⟨i, k₀, old⟩ := e
    obtain ⟨hold, hkey⟩ := hm.entry?_eq_some.mp hentry
    have hplace {j : Nat} (h : Holds m.entries j (.of k') w) : j = i ↔ MapKey.of k = .of k' := by
      rw [hm.place_iff hold h, hkey]
    simp only [OrderedMap.insert, exchange, hentry, holds_set hold, hkey]
    split
    · rename_i heq
      simp only [heq, true_and, Option.some.injEq]
      constructor
      · rintro ⟨j, ⟨_, hv⟩ | ⟨hj, h⟩⟩
        · exact hv
        · exact absurd ((hplace h).mpr heq) hj
      · exact fun hv => ⟨i, Or.inl ⟨rfl, hv⟩⟩
    · rename_i hne
      rw [hm.find?_eq_some]
      constructor
      · rintro ⟨j, ⟨_, hkk, _⟩ | ⟨_, h⟩⟩
        · exact absurd hkk hne
        · exact ⟨j, h⟩
      · rintro ⟨j, h⟩
        exact ⟨j, Or.inr ⟨fun hj => hne ((hplace h).mp hj), h⟩⟩
  -- the key is new, and its entry comes last
  | none =>
    have hnone := hm.entry?_eq_none.mp hentry
    simp only [OrderedMap.insert, exchange, hentry, holds_concat, exists_or]
    split
    · rename_i heq
      rw [heq] at hnone
      simp [hnone, heq]
    · rename_i hne
      simp [hne, hm.find?_eq_some]

/-! ### Taking a key out -/

theorem remove_eq (hm : m.Consistent) (hentry : m.entries[i]? = some (k', old))
    (hkey : MapKey.of k' = .of k) :
    m.remove k = (some old,
      ⟨reindex (m.index.erase (.of k)) (eraseAt m.entries i) i, eraseAt m.entries i⟩) := by
  have hposition : m.position? k = some i := (hm _ _).mpr ⟨old, k', hentry, hkey⟩
  simp [remove, hposition, hentry]

theorem remove_eq_self (hm : m.Consistent) (hnone : ∀ i v, ¬ Holds m.entries i (.of k) v) :
    m.remove k = (none, m) := by
  simp [remove, hm.position?_eq_none.mpr hnone]

/-- Which keys the other places have, after an entry has been taken out: those that they had, unless the key
is the one of the last entry, which has moved. -/
theorem exists_holds_eraseAt_ne (hm : m.Consistent) (hi : i < m.entries.length) (hj : j ≠ i) :
    (∃ v, Holds (eraseAt m.entries i) j key v) ↔
      (∀ v, ¬ Holds (eraseAt m.entries i) i key v) ∧ ∃ v, Holds m.entries j key v := by
  simp only [holds_eraseAt hi, if_neg hj, if_pos]
  constructor
  · rintro ⟨v, hlt, h⟩
    refine ⟨fun w hw => ?_, v, h⟩
    have heq := hm.unique h hw.2
    omega
  · rintro ⟨hgap, v, h⟩
    have hlt := h.lt
    refine ⟨v, ?_, h⟩
    by_contra hlast
    have heq : m.entries.length - 1 = j := by omega
    exact hgap v ⟨by omega, by rwa [heq]⟩

theorem erase (hm : m.Consistent) (k : Value) : (m.erase k).Consistent := by
  rcases absent_or_present m k with hnone | ⟨i, k', old, hentry, hkey⟩
  · rw [OrderedMap.erase, hm.remove_eq_self hnone]
    exact hm
  · have hi : i < m.entries.length := (List.getElem?_eq_some_iff.mp hentry).1
    have hplace {key : MapKey} {j : Nat} (h : ∃ v, Holds m.entries j key v) : j = i ↔ key = .of k := by
      obtain ⟨v, h⟩ := h
      rw [hm.place_iff hentry h, hkey, eq_comm]
    rw [OrderedMap.erase, hm.remove_eq hentry hkey]
    intro key j
    dsimp only
    rw [find?_reindex, Table.find?_erase]
    by_cases hj : j = i
    · -- the place of the entry taken out, where the last one may be now
      subst hj
      refine ⟨?_, fun h => Or.inl ⟨rfl, h⟩⟩
      rintro (⟨_, h⟩ | ⟨_, hfind⟩)
      · exact h
      · split at hfind
        · cases hfind
        · rename_i hne
          exact absurd ((hplace ((hm key j).mp hfind)).mp rfl) hne
    · rw [hm.exists_holds_eraseAt_ne hi hj]
      simp only [hj, false_and, false_or]
      refine and_congr_right fun _ => ?_
      split
      · rename_i heq
        exact iff_of_false nofun fun h => hj ((hplace h).mpr heq)
      · exact hm key j

theorem find?_erase (hm : m.Consistent) (k k' : Value) :
    (m.erase k).find? k' = if MapKey.of k = .of k' then none else m.find? k' := by
  refine Option.ext fun w => ?_
  rcases absent_or_present m k with hnone | ⟨i, k₀, old, hentry, hkey⟩
  · rw [OrderedMap.erase, hm.remove_eq_self hnone]
    split
    · rename_i heq
      rw [heq] at hnone
      rw [hm.find?_eq_some]
      simp [hnone]
    · rfl
  · have hi : i < m.entries.length := (List.getElem?_eq_some_iff.mp hentry).1
    have hplace {j : Nat} (h : Holds m.entries j (.of k') w) : j = i ↔ MapKey.of k = .of k' := by
      rw [hm.place_iff hentry h, hkey]
    have hleft : (m.erase k).entries = eraseAt m.entries i := by
      rw [OrderedMap.erase, hm.remove_eq hentry hkey]
    rw [(hm.erase k).find?_eq_some, hleft, exists_holds_eraseAt hi]
    split
    · rename_i heq
      simp only [reduceCtorEq, iff_false]
      rintro ⟨j, hj, h⟩
      exact hj ((hplace h).mpr heq)
    · rename_i hne
      rw [hm.find?_eq_some]
      exact exists_congr fun j => and_iff_right_of_imp fun h hj => hne ((hplace h).mp hj)

end Consistent

/-! ## Histories -/

theorem after_concat (history : List Change) (x : Change) :
    after (history ++ [x]) = x.apply (after history) :=
  List.foldl_concat ..

/-- A map that is collected from entries has a history as well. -/
theorem foldl_ofList (collected : List (Value × Value)) (changes : List Change) :
    changes.foldl Change.apply (ofList collected) = after (collected.map Change.ofEntry ++ changes) := by
  rw [after, List.foldl_append, List.foldl_map]
  rfl

theorem not_current_nil : ¬ Current [] key v :=
  fun ⟨_, _, hlast⟩ => not_last_nil hlast

/-- A change settles its key, and leaves the other keys as they were. -/
theorem current_concat {history : List Change} {x : Change} :
    Current (history ++ [x]) key v ↔
      (x.key = key ∧ ∃ k, x = .insert k v) ∨ (x.key ≠ key ∧ Current history key v) := by
  unfold Current
  constructor
  · rintro ⟨before, k, hlast⟩
    rcases last_concat.mp hlast with ⟨hx, rfl, rfl⟩ | ⟨hx, hlast⟩
    · exact Or.inl ⟨hx, k, rfl⟩
    · exact Or.inr ⟨hx, before, k, hlast⟩
  · rintro (⟨hx, k, rfl⟩ | ⟨hx, before, k, hlast⟩)
    · exact ⟨history, k, last_concat.mpr (Or.inl ⟨hx, rfl, rfl⟩)⟩
    · exact ⟨before, k, last_concat.mpr (Or.inr ⟨hx, hlast⟩)⟩

theorem consistent_empty : empty.Consistent := by
  intro key i
  simp [empty, Holds]

/-- A change keeps the index in step with the entries. -/
theorem Consistent.apply (hm : m.Consistent) (x : Change) : (x.apply m).Consistent := by
  cases x with
  | insert k v => exact hm.insert k v
  | remove k => exact hm.erase k

theorem consistent_after (history : List Change) : (after history).Consistent := by
  induction history using List.reverseRecOn with
  | nil => exact consistent_empty
  | append_singleton history x ih =>
    rw [after_concat]
    exact ih.apply x

/-- What a key finds is the value that is current. -/
theorem find?_after (history : List Change) (k v : Value) :
    (after history).find? k = some v ↔ Current history (.of k) v := by
  -- the last change decides for its key, and leaves the other keys to the history before it
  induction history using List.reverseRecOn with
  | nil => exact iff_of_false (by simp [after, empty, find?, position?, OrderedMap.entry?]) not_current_nil
  | append_singleton history x ih =>
    have hm := consistent_after history
    rw [after_concat, current_concat, ← ih]
    cases x with
    | insert k' v' =>
      simp only [Change.apply, Change.key, hm.find?_insert]
      by_cases hkey : MapKey.of k' = .of k
      · simp [hkey]
      · simp [hkey]
    | remove k' =>
      simp only [Change.apply, Change.key, hm.find?_erase]
      by_cases hkey : MapKey.of k' = .of k
      · simp [hkey]
      · simp [hkey]

namespace Consistent

theorem nodup (hm : m.Consistent) : (m.keys.map MapKey.of).Nodup := by
  rw [List.nodup_iff_getElem?_ne_getElem?]
  intro i j hij hj heq
  simp only [keys, List.map_map, List.length_map, List.getElem?_map] at hj heq
  obtain ⟨⟨k, v⟩, hk⟩ : ∃ e, m.entries[i]? = some e := ⟨_, List.getElem?_eq_getElem (Nat.lt_trans hij hj)⟩
  obtain ⟨⟨k', v'⟩, hk'⟩ : ∃ e, m.entries[j]? = some e := ⟨_, List.getElem?_eq_getElem hj⟩
  rw [hk, hk'] at heq
  have hkey : MapKey.of k = .of k' := Option.some.inj heq
  exact absurd (hm.unique ⟨k, hk, hkey⟩ ⟨k', hk', rfl⟩) (Nat.ne_of_lt hij)

theorem exchange_eq (hm : m.Consistent) (hentry : m.entries[i]? = some (k', old))
    (hkey : MapKey.of k' = .of k) (v : Value) :
    m.exchange k v = (some old, { m with entries := m.entries.set i (k', v) }) := by
  rw [exchange, hm.entry?_eq_some.mpr ⟨hentry, hkey⟩]

theorem exchange_eq_concat (hm : m.Consistent) (hnone : ∀ i v, ¬ Holds m.entries i (.of k) v)
    (v : Value) :
    m.exchange k v = (none, ⟨m.index.insert (.of k) m.entries.length, m.entries ++ [(k, v)]⟩) := by
  rw [exchange, hm.entry?_eq_none.mpr hnone]

end Consistent

/-! ## The finite map with an order -/

/-- A map answers as the history tells which it has behind it, and keeps its entries in order. -/
structure Refines (m : OrderedMap) (history : List Change) : Prop where
  /-- The index finds a key at a place exactly when the entry there has this key. -/
  index_iff key i : m.index.find? key = some i ↔ ∃ e, m.entries[i]? = some e ∧ MapKey.of e.1 = key
  /-- No key comes twice. -/
  distinct : (m.keys.map MapKey.of).Nodup
  /-- The index leads nowhere past the entries. -/
  position_lt k i : m.position? k = some i → i < m.size
  /-- A key has the value that was inserted last, unless it was removed since. -/
  find?_iff k v : m.find? k = some v ↔ Current history (.of k) v
  contains_iff k : m.contains k = true ↔ ∃ v, Current history (.of k) v
  /-- A value for a key that is there replaces the old one, which is given back, at its place and
  under the key that stands there. -/
  insert_present i k' old k v : m.entries[i]? = some (k', old) → MapKey.of k' = .of k →
    (m.exchange k v).1 = some old ∧ (m.insert k v).entries = m.entries.set i (k', v)
  /-- Another key goes to the end. -/
  insert_absent k v : (∀ e ∈ m.entries, MapKey.of e.1 ≠ .of k) →
    (m.exchange k v).1 = none ∧ (m.insert k v).entries = m.entries ++ [(k, v)]
  /-- When a key is taken out, its value is given back; there is one entry less, the last one stands
  in its place, and the others where they did. -/
  remove_present i k' old k : m.entries[i]? = some (k', old) → MapKey.of k' = .of k →
    (m.remove k).1 = some old ∧ (m.erase k).size + 1 = m.size ∧
      ∀ j < (m.erase k).size,
        (m.erase k).entries[j]? = if j = i then m.entries.getLast? else m.entries[j]?
  remove_absent k : (∀ e ∈ m.entries, MapKey.of e.1 ≠ .of k) → m.remove k = (none, m)

theorem not_holds_of_ne (hne : ∀ e ∈ entries, MapKey.of e.1 ≠ key) (i : Nat) (v : Value) :
    ¬ Holds entries i key v := by
  rintro ⟨k, hentry, hkey⟩
  exact hne (k, v) (List.mem_of_getElem? hentry) hkey

/-- **A map is a finite map whose entries are in the order of insertion**, whatever it was collected
from and whatever has been inserted and removed since. -/
theorem refines_ordered_map (collected : List (Value × Value)) (changes : List Change) :
    (changes.foldl Change.apply (ofList collected)).Refines
      (collected.map Change.ofEntry ++ changes) := by
  rw [foldl_ofList]
  generalize collected.map Change.ofEntry ++ changes = history
  have hm := consistent_after history
  constructor
  case index_iff =>
    intro key i
    rw [hm key i]
    simp only [Holds, Prod.exists]
    exact exists_comm
  case distinct => exact hm.nodup
  case position_lt =>
    intro k i hi
    obtain ⟨v, h⟩ := (hm (.of k) i).mp hi
    exact h.lt
  case find?_iff => exact find?_after history
  case contains_iff =>
    intro k
    simp only [hm.contains_iff, find?_after]
  case insert_present =>
    intro i k' old k v hentry hkey
    rw [insert, hm.exchange_eq hentry hkey]
    exact ⟨rfl, rfl⟩
  case insert_absent =>
    intro k v hne
    rw [insert, hm.exchange_eq_concat (not_holds_of_ne hne)]
    exact ⟨rfl, rfl⟩
  case remove_present =>
    intro i k' old k hentry hkey
    have hi : i < (after history).entries.length := (List.getElem?_eq_some_iff.mp hentry).1
    rw [erase, hm.remove_eq hentry hkey]
    refine ⟨rfl, length_eraseAt hi, fun j hj => ?_⟩
    have hlength := length_eraseAt hi
    have hlt : j + 1 < (after history).entries.length := hlength ▸ Nat.succ_lt_succ hj
    exact (getElem?_eraseAt hi).trans (if_pos hlt)
  case remove_absent => exact fun k hne => hm.remove_eq_self (not_holds_of_ne hne)

example : ((ofList [(.int 1, .null), (.int 2, .null), (.int 3, .null)]).erase (.int 1)).keys =
    [.int 3, .int 2] := by decide

end OrderedMap
end TreeScript
