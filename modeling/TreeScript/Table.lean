/-!
# Tables

A table keeps one value per key, the latest one inserted.  Nothing depends on the order of its
entries.
-/

namespace TreeScript

/-- A finite map as a list of entries, no key twice. -/
structure Table (κ : Type) (α : Type) where
  entries : List (κ × α)

namespace Table

variable {κ α : Type} [DecidableEq κ]

instance : Inhabited (Table κ α) := ⟨⟨[]⟩⟩

/-- The table without entries. -/
def empty : Table κ α := ⟨[]⟩

/-- The value of a key. -/
def find? (t : Table κ α) (k : κ) : Option α := t.entries.lookup k

/-- Whether a key has a value. -/
def contains (t : Table κ α) (k : κ) : Bool := (t.find? k).isSome

/-- Take a key out. -/
def erase (t : Table κ α) (k : κ) : Table κ α := ⟨t.entries.filter (·.1 ≠ k)⟩

/-- Give a key a value in place of any earlier one. -/
def insert (t : Table κ α) (k : κ) (v : α) : Table κ α := ⟨(k, v) :: (t.erase k).entries⟩

/-- How many keys have a value. -/
def size (t : Table κ α) : Nat := t.entries.length

/-- The keys that have a value. -/
def keys (t : Table κ α) : List κ := t.entries.map (·.1)

/-! ## What a key's value is afterwards -/

@[simp] theorem find?_empty (k : κ) : (empty : Table κ α).find? k = none := rfl

theorem find?_erase (t : Table κ α) (k l : κ) :
    (t.erase k).find? l = if l = k then none else t.find? l := by
  obtain ⟨entries⟩ := t
  simp only [erase, find?]
  induction entries with
  | nil => simp
  | cons e es ih =>
    obtain ⟨m, v⟩ := e
    -- an entry is dropped, or stays in front of what is left of the others
    by_cases hm : m = k
    · subst hm
      simp only [ne_eq, not_true_eq_false, decide_false, Bool.false_eq_true, not_false_eq_true,
        List.filter_cons_of_neg, List.lookup_cons]
      rw [ih]
      by_cases hl : l = m
      · simp [hl]
      · have : (l == m) = false := by simp [hl]
        simp [hl, this]
    · simp only [ne_eq, hm, not_false_eq_true, decide_true, List.filter_cons_of_pos,
        List.lookup_cons]
      by_cases hl : l = m
      · subst hl
        simp [hm]
      · have : (l == m) = false := by simp [hl]
        simp only [this]
        exact ih

theorem find?_insert (t : Table κ α) (k l : κ) (v : α) :
    (t.insert k v).find? l = if l = k then some v else t.find? l := by
  have h := find?_erase t k l
  simp only [insert, find?, List.lookup_cons] at h ⊢
  by_cases hl : l = k
  · simp [hl]
  · have : (l == k) = false := by simp [hl]
    simp only [this, h, hl, if_false]

/-! ## Entries -/

/-- The value of a key is among the entries. -/
theorem mem_of_find? {t : Table κ α} {k : κ} {v : α} (h : t.find? k = some v) :
    (k, v) ∈ t.entries := by
  obtain ⟨before, after, hentries, _⟩ := List.lookup_eq_some_iff.mp h
  rw [hentries]
  exact List.mem_append_right before List.mem_cons_self

/-- The entries after a value has been given to a key. -/
theorem mem_insert {t : Table κ α} {k : κ} {v : α} {e : κ × α}
    (h : e ∈ (t.insert k v).entries) : e = (k, v) ∨ e ∈ t.entries := by
  rcases List.mem_cons.mp h with h | h
  · exact Or.inl h
  · exact Or.inr (List.mem_filter.mp h).1

end Table
end TreeScript
