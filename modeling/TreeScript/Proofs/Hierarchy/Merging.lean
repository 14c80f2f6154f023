import Mathlib.Data.List.Forall2
import Mathlib.Data.List.Induction
import Mathlib.Data.List.Nodup
import TreeScript.Class

/-
# Merging members

A class is merged from what it declares and from what its superclasses have, member by member.  Here is
what merging does to a single key: of several declarations the last one counts, and what is there already
counts before what is inherited (`find?_declared`, `find?_inheritTables`, and the same of fields).  The
fields keep their order, and no name comes twice (`names_inheritFields`).

The keys of a table that is merged are distinct, so that tables which find the same have the same entries
in some order (`Table.perm_of_find?`): the order does not matter in which a table is gone through.
-/

namespace TreeScript

/-! ## Lists -/

section
variable {α β γ : Type}

/-- What is found first in parts that follow one another is what is found first in one of them. -/
theorem findSome?_flatMap (f : α → List β) (g : β → Option γ) (l : List α) :
    (l.flatMap f).findSome? g = l.findSome? fun a => (f a).findSome? g := by
  induction l with
  | nil => rfl
  | cons a l ih =>
    rw [List.flatMap_cons, List.findSome?_append, ih, List.findSome?_cons]
    cases (f a).findSome? g <;> rfl

variable [DecidableEq α]

/-- Filtering keeps which occurrence of an item is the first. -/
theorem filter_eraseDups (p : α → Bool) : (l : List α) → l.eraseDups.filter p = (l.filter p).eraseDups
  | [] => rfl
  | a :: l => by
    have hrest := filter_eraseDups p (l.filter fun b => !b == a)
    rw [List.eraseDups_cons, List.filter_cons, List.filter_cons, hrest, List.filter_filter]
    split
    · rw [List.eraseDups_cons, List.filter_filter]
      simp only [Bool.and_comm]
    · rename_i ha
      congr 1
      refine List.filter_congr fun b _ => ?_
      by_cases hb : b = a
      · simp [hb, ha]
      · simp [hb]
termination_by l => l.length
decreasing_by exact Nat.lt_succ_of_le (List.length_filter_le _ _)

theorem nodup_eraseDups : (l : List α) → l.eraseDups.Nodup
  | [] => List.nodup_nil
  | a :: l => by
    rw [List.eraseDups_cons, List.nodup_cons, List.mem_eraseDups]
    exact ⟨fun h => by simp at h, nodup_eraseDups (l.filter fun b => !b == a)⟩
termination_by l => l.length
decreasing_by exact Nat.lt_succ_of_le (List.length_filter_le _ _)

/-- What is taken out beforehand may be named several times. -/
theorem removeAll_eraseDups (l m : List α) : l.removeAll m.eraseDups = l.removeAll m := by
  refine List.filter_congr fun a _ => ?_
  simp only [List.elem_eq_contains, List.contains_eq_mem, List.mem_eraseDups]

end

/-! ## Tables -/

namespace Table

variable {κ α : Type} [DecidableEq κ] {t t' : Table κ α}

/-- Of several values that are given to a key, the last one counts. -/
theorem find?_declared (key : α → κ) (items : List α) (t : Table κ α) (k : κ) :
    (items.foldl (fun t a => t.insert (key a) a) t).find? k =
      (items.reverse.find? fun a => key a = k).or (t.find? k) := by
  induction items using List.reverseRecOn with
  | nil => rfl
  | append_singleton items a ih =>
    rw [List.foldl_append, List.foldl_cons, List.foldl_nil, find?_insert, ih, List.reverse_append]
    by_cases ha : key a = k
    · simp [ha]
    · simp [ha, Ne.symm ha]

/-- What a table with one entry in front of others finds. -/
theorem find?_cons (l : κ) (v : α) (entries : List (κ × α)) (k : κ) :
    (Table.mk ((l, v) :: entries)).find? k = if k = l then some v else (Table.mk entries).find? k := by
  unfold find?
  rw [List.lookup_cons]
  by_cases hk : k = l
  · simp [hk]
  · rw [if_neg hk, beq_eq_false_iff_ne.mpr hk]

/-- What is there already counts before what is inherited. -/
theorem find?_inheritTable (t inherited : Table κ α) (k : κ) :
    (ClassDef.inheritTable t inherited).find? k = (t.find? k).or (inherited.find? k) := by
  obtain ⟨entries⟩ := inherited
  unfold ClassDef.inheritTable
  -- the inherited entries go in one by one, each into what there is by then
  induction entries generalizing t with
  | nil => exact Option.or_none.symm
  | cons e entries ih =>
    obtain ⟨l, v⟩ := e
    rw [List.foldl_cons, ih, find?_cons]
    dsimp only
    unfold contains
    cases h : t.find? l with
    | some u =>
      by_cases hk : k = l
      · simp [hk, h]
      · simp [hk]
    | none =>
      by_cases hk : k = l
      · simp [hk, h, find?_insert]
      · simp [hk, find?_insert]

/-- Of several tables that are inherited, the first one counts. -/
theorem find?_inheritTables (table : ClassDef → Table κ α) (supers : List ClassDef) (t : Table κ α)
    (k : κ) :
    (supers.foldl (fun t s => ClassDef.inheritTable t (table s)) t).find? k =
      (t.find? k).or (supers.findSome? fun s => (table s).find? k) := by
  induction supers generalizing t with
  | nil => exact Option.or_none.symm
  | cons s supers ih =>
    rw [List.foldl_cons, ih, find?_inheritTable, Option.or_assoc, List.findSome?_cons]
    cases (table s).find? k <;> rfl

/-! ### Distinct keys -/

/-- No key comes twice. -/
def Distinct (t : Table κ α) : Prop := t.keys.Nodup

omit [DecidableEq κ] in
theorem distinct_empty : (empty : Table κ α).Distinct := List.nodup_nil

theorem Distinct.insert (h : t.Distinct) (k : κ) (v : α) : (t.insert k v).Distinct := by
  have hkeys : (t.insert k v).keys = k :: t.keys.filter (· ≠ k) := by
    simp only [keys, Table.insert, erase, List.map_cons, List.filter_map]
    rfl
  unfold Distinct
  rw [hkeys, List.nodup_cons]
  exact ⟨fun hk => by simp at hk, h.filter _⟩

theorem Distinct.declared (h : t.Distinct) (key : α → κ) (items : List α) :
    (items.foldl (fun t a => t.insert (key a) a) t).Distinct := by
  induction items generalizing t with
  | nil => exact h
  | cons a items ih => exact ih (h.insert (key a) a)

theorem Distinct.inheritTable (h : t.Distinct) (inherited : Table κ α) :
    (ClassDef.inheritTable t inherited).Distinct := by
  obtain ⟨entries⟩ := inherited
  unfold ClassDef.inheritTable
  induction entries generalizing t with
  | nil => exact h
  | cons e entries ih =>
    rw [List.foldl_cons]
    dsimp only
    split
    · exact ih h
    · exact ih (h.insert e.1 e.2)

theorem Distinct.inheritTables (h : t.Distinct) (table : ClassDef → Table κ α)
    (supers : List ClassDef) :
    (supers.foldl (fun t s => ClassDef.inheritTable t (table s)) t).Distinct := by
  induction supers generalizing t with
  | nil => exact h
  | cons s supers ih => exact ih (h.inheritTable (table s))

/-- Where keys are distinct, every entry is found. -/
theorem Distinct.find?_eq_some (h : t.Distinct) {k : κ} {v : α} :
    t.find? k = some v ↔ (k, v) ∈ t.entries := by
  refine ⟨mem_of_find?, fun hmem => ?_⟩
  obtain ⟨entries⟩ := t
  induction entries with
  | nil => cases hmem
  | cons e entries ih =>
    obtain ⟨l, u⟩ := e
    obtain ⟨hfirst, hrest⟩ := List.nodup_cons.mp h
    rw [find?_cons]
    rcases List.mem_cons.mp hmem with heq | hentry
    · cases heq
      exact if_pos rfl
    · have hkey : k ∈ entries.map Prod.fst := List.mem_map_of_mem (f := Prod.fst) hentry
      have hne : k ≠ l := fun hk => hfirst (hk ▸ hkey)
      rw [if_neg hne]
      exact ih hrest hentry

/-- The order of the entries does not show. -/
theorem Distinct.find?_of_perm (h : t.Distinct) (hperm : t.entries.Perm t'.entries) (k : κ) :
    t'.find? k = t.find? k := by
  have h' : t'.Distinct := (hperm.map Prod.fst).nodup_iff.mp h
  refine Option.ext fun v => ?_
  rw [h'.find?_eq_some, h.find?_eq_some, hperm.mem_iff]

/-- Tables that find the same have the same entries in some order. -/
theorem Distinct.perm_of_find? (h : t.Distinct) (h' : t'.Distinct) (heq : ∀ k, t'.find? k = t.find? k) :
    t.entries.Perm t'.entries := by
  refine (List.perm_ext_iff_of_nodup (h.of_map Prod.fst) (h'.of_map Prod.fst)).mpr fun e => ?_
  rw [← h.find?_eq_some (k := e.1), ← h'.find?_eq_some (k := e.1), heq]

end Table

/-! ## Fields -/

namespace ClassDef

/-- The field of a name. -/
def field? (c : ClassDef) (name : String) : Option (FieldDecl Node) :=
  c.fields.find? (·.name == name)

/-- The names of fields, in their order. -/
def fieldNames (fs : List (FieldDecl Node)) : List String := fs.map (·.name)

theorem any_name (fs : List (FieldDecl Node)) (name : String) :
    fs.any (·.name == name) = (fieldNames fs).contains name := by
  rw [fieldNames, List.contains_map]
  exact congrArg fs.any (funext fun _ => Bool.beq_comm)

/-- What is done with a further declaration of a class. -/
def declareField (fs : List (FieldDecl Node)) (f : FieldDecl Node) : List (FieldDecl Node) :=
  if fs.any (·.name == f.name) then fs.map fun g => if g.name == f.name then f else g else fs ++ [f]

theorem ownFields_eq (declared : List (FieldDecl Node)) :
    ownFields declared = declared.foldl declareField [] := rfl

theorem find?_replaced (fs : List (FieldDecl Node)) (f : FieldDecl Node) (name : String) :
    (fs.map fun g => if g.name == f.name then f else g).find? (·.name == name) =
      if f.name = name then (fs.find? (·.name == name)).map fun _ => f
      else fs.find? (·.name == name) := by
  induction fs with
  | nil => exact (ite_self none).symm
  | cons g fs ih =>
    rw [List.map_cons, List.find?_cons, List.find?_cons, ih]
    by_cases hg : g.name = f.name
    · rw [if_pos (beq_iff_eq.mpr hg), hg]
      by_cases hf : f.name = name
      · simp [hf]
      · simp only [beq_eq_false_iff_ne.mpr hf]
    · rw [if_neg (fun h => hg (beq_iff_eq.mp h))]
      by_cases hname : g.name = name
      · have hf : f.name ≠ name := fun h => hg (hname.trans h.symm)
        simp [hname, hf]
      · simp only [beq_eq_false_iff_ne.mpr hname]

/-- The last declaration of a name counts. -/
theorem find?_declareField (fs : List (FieldDecl Node)) (f : FieldDecl Node) (name : String) :
    (declareField fs f).find? (·.name == name) =
      if f.name = name then some f else fs.find? (·.name == name) := by
  unfold declareField
  split
  · rename_i hany
    rw [find?_replaced]
    by_cases hf : f.name = name
    · obtain ⟨g, hg⟩ := Option.isSome_iff_exists.mp (List.find?_isSome.mpr (List.any_eq_true.mp hany))
      rw [if_pos hf, if_pos hf, ← hf, hg]
      rfl
    · rw [if_neg hf, if_neg hf]
  · rename_i hany
    rw [List.find?_append]
    by_cases hf : f.name = name
    · have hnone : fs.find? (·.name == name) = none := by
        rw [List.find?_eq_none]
        simpa [hf] using hany
      simp [hnone, hf]
    · simp [hf]

theorem find?_ownFields (declared : List (FieldDecl Node)) (name : String) :
    (ownFields declared).find? (·.name == name) = declared.reverse.find? (·.name == name) := by
  rw [ownFields_eq]
  induction declared using List.reverseRecOn with
  | nil => rfl
  | append_singleton declared f ih =>
    rw [List.foldl_append, List.foldl_cons, List.foldl_nil, find?_declareField, ih, List.reverse_append]
    by_cases hf : f.name = name <;> simp [hf]

theorem names_declareField (fs : List (FieldDecl Node)) (f : FieldDecl Node) :
    fieldNames (declareField fs f) =
      if (fieldNames fs).contains f.name then fieldNames fs else fieldNames fs ++ [f.name] := by
  unfold declareField
  rw [any_name]
  split
  · unfold fieldNames
    rw [List.map_map]
    refine List.map_congr_left fun g _ => ?_
    by_cases hg : g.name = f.name <;> simp [hg]
  · simp [fieldNames]

/-- Names stand where they are first declared. -/
theorem names_ownFields (declared : List (FieldDecl Node)) :
    fieldNames (ownFields declared) = (fieldNames declared).eraseDups := by
  rw [ownFields_eq]
  induction declared using List.reverseRecOn with
  | nil => rfl
  | append_singleton declared f ih =>
    have hnames : fieldNames (declared ++ [f]) = fieldNames declared ++ [f.name] := List.map_append
    rw [List.foldl_append, List.foldl_cons, List.foldl_nil, names_declareField, ih, hnames,
      List.eraseDups_append, List.cons_removeAll, List.nil_removeAll]
    by_cases hf : f.name ∈ fieldNames declared
    · simp [hf]
    · simp [hf, List.eraseDups_cons]

/-- Fields that are there already count before those that are inherited. -/
theorem find?_inheritFields (fs inherited : List (FieldDecl Node)) (name : String) :
    (inheritFields fs inherited).find? (·.name == name) =
      (fs.find? (·.name == name)).or (inherited.find? (·.name == name)) := by
  unfold inheritFields
  rw [List.find?_append, List.find?_filter]
  cases hfound : fs.find? (·.name == name) with
  | some f => rfl
  | none =>
    rw [Option.none_or, Option.none_or]
    refine congrArg (inherited.find? ·) (funext fun g => ?_)
    by_cases hg : g.name = name
    · have hnew : fs.any (·.name == g.name) = false := by
        rw [hg, List.any_eq_false]
        exact List.find?_eq_none.mp hfound
      rw [hnew]
      simp [hg]
    · simp [hg]

/-- Inherited names follow those that are there already, in their order. -/
theorem names_inheritFields {fs inherited : List (FieldDecl Node)} {before names : List String}
    (hfs : fieldNames fs = before.eraseDups) (hinherited : fieldNames inherited = names.eraseDups) :
    fieldNames (inheritFields fs inherited) = (before ++ names).eraseDups := by
  have hnew : fieldNames (inherited.filter fun f => !fs.any (·.name == f.name)) =
      (fieldNames inherited).removeAll (fieldNames fs) := by
    simp only [any_name, List.removeAll, List.elem_eq_contains]
    exact (List.filter_map (f := fun f : FieldDecl Node => f.name) (l := inherited)
      (p := fun name => !(fieldNames fs).contains name)).symm
  have hsplit : fieldNames (inheritFields fs inherited) =
      fieldNames fs ++ fieldNames (inherited.filter fun f => !fs.any (·.name == f.name)) :=
    List.map_append
  rw [hsplit, hnew, hfs, hinherited, List.eraseDups_append, removeAll_eraseDups]
  unfold List.removeAll
  rw [filter_eraseDups]

/-- Of several superclasses that have a field, the first one counts. -/
theorem find?_inheritAll (supers : List ClassDef) (fs : List (FieldDecl Node)) (name : String) :
    (supers.foldl (fun fs s => inheritFields fs s.fields) fs).find? (·.name == name) =
      (fs.find? (·.name == name)).or (supers.findSome? (·.field? name)) := by
  induction supers generalizing fs with
  | nil => exact Option.or_none.symm
  | cons s supers ih =>
    rw [List.foldl_cons, ih, find?_inheritFields, Option.or_assoc, List.findSome?_cons]
    unfold field?
    cases s.fields.find? (·.name == name) <;> rfl

/-- The names that superclasses have follow one another. -/
theorem names_inheritAll {supers : List ClassDef} {names : List (List String)}
    (hsupers : List.Forall₂ (fun ns s => fieldNames s.fields = ns.eraseDups) names supers)
    {fs : List (FieldDecl Node)} {before : List String} (hfs : fieldNames fs = before.eraseDups) :
    fieldNames (supers.foldl (fun fs s => inheritFields fs s.fields) fs) =
      (before ++ names.flatten).eraseDups := by
  induction hsupers generalizing fs before with
  | nil => rwa [List.flatten_nil, List.append_nil]
  | cons hs _ ih =>
    rw [List.flatten_cons, ← List.append_assoc]
    exact ih (names_inheritFields hfs hs)

end ClassDef
end TreeScript
