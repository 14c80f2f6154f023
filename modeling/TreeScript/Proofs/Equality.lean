import Mathlib.Data.List.Perm.Subperm
import TreeScript.Proofs.Endings.Structures
import TreeScript.Proofs.Histories.OrderedMap
import TreeScript.Proofs.Integers.Promotion
import TreeScript.Proofs.Texts

/-
# Equality as a relation

Two maps are compared from one side: they have the same size, and the other map finds every key of the
first with an equal value.  That the other map has no more keys is a matter of counting, since in neither a
key comes twice, and this rests on what the maps have behind them (`OrderedMap.Consistent`).  So the
comparison asks whether the two have the same keys, with equal values (`OrderedMap.Matches`).

With this, a step of the comparison treats its two sides alike (`Heap.Agree`), and since values that end
are compared by values that end, what holds of one step holds of the comparison.
-/

namespace TreeScript

open Relation

/-! ## Maps with the same keys -/

namespace OrderedMap

/-- Two maps have the same keys, with related values. -/
structure Matches (R : Value → Value → Prop) (m n : OrderedMap) : Prop where
  keys : ∀ key, key ∈ m.keys.map MapKey.of ↔ key ∈ n.keys.map MapKey.of
  values : ∀ e ∈ m.entries, ∀ e' ∈ n.entries, MapKey.of e.1 = .of e'.1 → R e.2 e'.2

variable {m n p : OrderedMap} {R S : Value → Value → Prop} {k v : Value} {key : MapKey}

theorem mem_keys : key ∈ m.keys.map MapKey.of ↔ ∃ e ∈ m.entries, MapKey.of e.1 = key := by
  simp [OrderedMap.keys]

theorem Consistent.find?_iff_mem (hm : m.Consistent) :
    m.find? k = some v ↔ ∃ e ∈ m.entries, MapKey.of e.1 = .of k ∧ e.2 = v := by
  rw [hm.find?_eq_some]
  constructor
  · rintro ⟨i, k', hentry, hkey⟩
    exact ⟨(k', v), List.mem_of_getElem? hentry, hkey, rfl⟩
  · rintro ⟨⟨k', _⟩, he, hkey, rfl⟩
    obtain ⟨i, hentry⟩ := List.mem_iff_getElem?.mp he
    exact ⟨i, k', hentry, hkey⟩

/-- It is enough to look from one side: maps of one size have the same keys if one finds those of the
other. -/
theorem Consistent.matches_iff (hm : m.Consistent) (hn : n.Consistent) :
    n.Matches R m ↔
      m.size = n.size ∧ ∀ e ∈ m.entries, ∃ y, n.find? e.1 = some y ∧ R y e.2 := by
  have hlength : ∀ p : OrderedMap, (p.keys.map MapKey.of).length = p.size := fun p => by
    rw [List.length_map, OrderedMap.keys, List.length_map, size]
  constructor
  · intro hmatch
    have hperm := (List.perm_ext_iff_of_nodup hn.nodup hm.nodup).mpr hmatch.keys
    refine ⟨?_, fun e he => ?_⟩
    · rw [← hlength, ← hlength, hperm.length_eq]
    · obtain ⟨e', he', hkey⟩ := mem_keys.mp ((hmatch.keys _).mpr (mem_keys.mpr ⟨e, he, rfl⟩))
      exact ⟨e'.2, hn.find?_iff_mem.mpr ⟨e', he', hkey, rfl⟩, hmatch.values e' he' e he hkey⟩
  · rintro ⟨hsize, hfinds⟩
    have hsubset : m.keys.map MapKey.of ⊆ n.keys.map MapKey.of := by
      intro key hkey
      obtain ⟨e, he, rfl⟩ := mem_keys.mp hkey
      obtain ⟨y, hy, _⟩ := hfinds e he
      obtain ⟨e', he', hkey', _⟩ := hn.find?_iff_mem.mp hy
      exact mem_keys.mpr ⟨e', he', hkey'⟩
    have hperm : (m.keys.map MapKey.of).Perm (n.keys.map MapKey.of) := by
      apply (List.subperm_of_subset hm.nodup hsubset).perm_of_length_le
      rw [hlength, hlength, hsize]
    refine ⟨fun key => hperm.mem_iff.symm, fun e' he' e he hkey => ?_⟩
    obtain ⟨y, hy, hR⟩ := hfinds e he
    have hy' : n.find? e.1 = some e'.2 := hn.find?_iff_mem.mpr ⟨e', he', hkey, rfl⟩
    rw [hy'] at hy
    cases hy
    exact hR

theorem Consistent.matches_self (hm : m.Consistent) (hR : ∀ x ∈ m.values, R x x) : m.Matches R m := by
  refine ⟨fun key => Iff.rfl, fun e he e' he' hkey => ?_⟩
  -- the key finds one value
  have hfind : m.find? e'.1 = some e.2 := hm.find?_iff_mem.mpr ⟨e, he, hkey, rfl⟩
  rw [hm.find?_iff_mem.mpr ⟨e', he', rfl, rfl⟩] at hfind
  rw [Option.some.inj hfind]
  exact hR e.2 (List.mem_map_of_mem he)

theorem Matches.imp (h : m.Matches R n) (hRS : ∀ x ∈ m.values, ∀ y ∈ n.values, R x y → S x y) :
    m.Matches S n := by
  refine ⟨h.keys, fun e he e' he' hkey => ?_⟩
  exact hRS e.2 (List.mem_map_of_mem he) e'.2 (List.mem_map_of_mem he') (h.values e he e' he' hkey)

theorem Matches.flip (h : m.Matches R n) : n.Matches (flip R) m :=
  ⟨fun key => (h.keys key).symm, fun e' he' e he hkey => h.values e he e' he' hkey.symm⟩

theorem Matches.trans (h : m.Matches R n) (h' : n.Matches R p)
    (hR : ∀ x ∈ m.values, ∀ y ∈ n.values, ∀ z ∈ p.values, R x y → R y z → R x z) :
    m.Matches R p := by
  refine ⟨fun key => (h.keys key).trans (h'.keys key), fun e he g hg hkey => ?_⟩
  -- the key is one of the map between the two
  obtain ⟨f, hf, hfkey⟩ := mem_keys.mp ((h.keys _).mp (mem_keys.mpr ⟨e, he, rfl⟩))
  apply hR e.2 (List.mem_map_of_mem he) f.2 (List.mem_map_of_mem hf) g.2 (List.mem_map_of_mem hg)
  · exact h.values e he f hf hfkey.symm
  · exact h'.values f hf g hg (hfkey.trans hkey)

end OrderedMap

/-! ## Kinds of values -/

namespace Value

/-- A value is a number of floating point. -/
def isFloating : Value → Bool
  | float _ | double _ => true
  | _ => false

/-- A value has a structure to compare. -/
def isStructured : Value → Bool
  | list _ | map _ => true
  | _ => false

/-- A value is neither absent nor a string and has no structure to compare. -/
def isSingle : Value → Bool
  | null | str _ | list _ | map _ => false
  | _ => true

end Value

/-! ## Comparing lists -/

theorem allM_eq_true {α : Type} {f : α → Option Bool} {items : List α} :
    items.allM f = some true ↔ ∀ a ∈ items, f a = some true := by
  induction items with
  | nil => simp [List.allM]
  | cons a items ih =>
    rw [List.allM, List.forall_mem_cons, ← ih]
    cases f a with
    | none => simp
    | some b => cases b <;> simp

theorem allM_mono {α : Type} {f g : α → Option Bool} {items : List α} {b : Bool}
    (hfg : ∀ a ∈ items, ∀ c, f a = some c → g a = some c) (h : items.allM f = some b) :
    items.allM g = some b := by
  induction items with
  | nil => exact h
  | cons a items ih =>
    rw [List.allM] at h ⊢
    cases hf : f a with
    | none =>
      rw [hf] at h
      cases h
    | some c =>
      rw [hf] at h
      rw [hfg a List.mem_cons_self c hf]
      cases c with
      | false => exact h
      | true => exact ih (fun d hd => hfg d (List.mem_cons_of_mem a hd)) h

theorem forall₂_imp {α β : Type} {R S : α → β → Prop} {xs : List α} {ys : List β}
    (h : List.Forall₂ R xs ys) (hRS : ∀ x ∈ xs, ∀ y ∈ ys, R x y → S x y) : List.Forall₂ S xs ys := by
  rw [List.forall₂_iff_zip] at h ⊢
  refine ⟨h.1, fun hpair => ?_⟩
  obtain ⟨hx, hy⟩ := List.of_mem_zip hpair
  exact hRS _ hx _ hy (h.2 hpair)

theorem forall₂_trans {α : Type} {R : α → α → Prop} {xs ys zs : List α} (h : List.Forall₂ R xs ys)
    (h' : List.Forall₂ R ys zs)
    (hR : ∀ x ∈ xs, ∀ y ∈ ys, ∀ z ∈ zs, R x y → R y z → R x z) : List.Forall₂ R xs zs := by
  induction h generalizing zs with
  | nil =>
    cases h'
    exact .nil
  | cons hxy _ ih =>
    cases h' with
    | cons hyz h' =>
      refine .cons (hR _ List.mem_cons_self _ List.mem_cons_self _ List.mem_cons_self hxy hyz)
        (ih h' fun x hx y hy z hz => ?_)
      exact hR x (List.mem_cons_of_mem _ hx) y (List.mem_cons_of_mem _ hy) z (List.mem_cons_of_mem _ hz)

/-- What is reached past a test may be replaced. -/
theorem ite_imp {α : Type} {c : Prop} [Decidable c] {a x y b : α} (hxy : x = b → y = b)
    (h : (if c then a else x) = b) : (if c then a else y) = b := by
  by_cases hc : c
  · rwa [if_pos hc] at h ⊢
  · rw [if_neg hc] at h ⊢
    exact hxy h

/-! ## Depths -/

namespace Heap

variable {h : Heap} {u v w : Value} {n m : Nat} {b : Bool} {R S : Value → Value → Prop}

/-- What is said down to a depth is said further down. -/
theorem equalTo_mono (hle : n ≤ m) (hb : h.equalTo n v w = some b) : h.equalTo m v w = some b := by
  induction n generalizing m v w b with
  | zero => cases hb
  | succ n ih =>
    obtain ⟨m, rfl⟩ : ∃ k, m = k + 1 := ⟨m - 1, by omega⟩
    have hle' : n ≤ m := Nat.le_of_succ_le_succ hle
    -- both sides unfold in the same way; only the depths of the parts differ
    rw [equalTo.eq_def] at hb ⊢
    dsimp only at hb ⊢
    split at hb
    · exact hb
    · exact hb
    · exact ite_imp (ite_imp (allM_mono fun p _ c hc => ih hle' hc)) hb
    · rename_i i j
      refine ite_imp (ite_imp (allM_mono fun e _ c hc => ?_)) hb
      cases hy : (h.mapAt j).find? e.1 with
      | none => rwa [hy] at hc
      | some y =>
        rw [hy] at hc
        exact ih hle' hc
    · exact hb

/-- Every map has come about by insertions and removals. -/
def Recorded (h : Heap) : Prop := ∀ i, ∃ history, h.mapAt i = .after history

theorem Recorded.consistent (hh : h.Recorded) (i : Nat) : (h.mapAt i).Consistent := by
  obtain ⟨history, hi⟩ := hh i
  rw [hi]
  exact OrderedMap.consistent_after history

/-- No path through a value goes on for ever or comes by a number of floating point. -/
structure Plain (h : Heap) (v : Value) : Prop where
  acyclic : h.Acyclic v
  exact : ∀ w, Leads h.parts v w → w.isFloating = false

theorem Plain.part (hv : h.Plain v) (hw : w ∈ h.parts v) : h.Plain w :=
  ⟨hv.acyclic.part hw, fun u hu => hv.exact u (.head hw hu)⟩

theorem Plain.compared (hv : h.Plain v) (hw : w ∈ h.compared v) : h.Plain w :=
  hv.part (compared_subset hw)

/-! ## A step of the comparison -/

/-- Two values are the same, or what they are compared by is related. -/
inductive Agree (h : Heap) (R : Value → Value → Prop) : Value → Value → Prop where
  /-- The same content, or the same storage. -/
  | same (v : Value) : Agree h R v v
  | lists {i j : Nat} (elements : List.Forall₂ R (h.sequence i).toList (h.sequence j).toList) :
    Agree h R (.list i) (.list j)
  /-- It is the values of the second map that come first. -/
  | maps {i j : Nat} (entries : (h.mapAt j).Matches R (h.mapAt i)) : Agree h R (.map i) (.map j)

theorem agree_list {i j : Nat} :
    h.Agree R (.list i) (.list j) ↔
      i = j ∨ List.Forall₂ R (h.sequence i).toList (h.sequence j).toList := by
  constructor
  · rintro (_ | helements | _)
    · exact Or.inl rfl
    · exact Or.inr helements
  · rintro (rfl | helements)
    · exact .same _
    · exact .lists helements

theorem agree_map {i j : Nat} :
    h.Agree R (.map i) (.map j) ↔ i = j ∨ (h.mapAt j).Matches R (h.mapAt i) := by
  constructor
  · rintro (_ | _ | hentries)
    · exact Or.inl rfl
    · exact Or.inr hentries
  · rintro (rfl | hentries)
    · exact .same _
    · exact .maps hentries

theorem Agree.imp (hvw : h.Agree R v w)
    (hRS : ∀ x ∈ h.compared v, ∀ y ∈ h.compared w, (R x y → S x y) ∧ (R y x → S y x)) :
    h.Agree S v w := by
  cases hvw with
  | same => exact .same v
  | lists helements => exact .lists (forall₂_imp helements fun x hx y hy => (hRS x hx y hy).1)
  | maps hentries => exact .maps (hentries.imp fun y hy x hx => (hRS x hx y hy).2)

theorem Agree.flip (hvw : h.Agree R v w) : h.Agree (flip R) w v := by
  cases hvw with
  | same => exact .same v
  | lists helements => exact .lists helements.flip
  | maps hentries => exact .maps hentries.flip

theorem Agree.trans (huv : h.Agree R u v) (hvw : h.Agree R v w)
    (hR : ∀ x ∈ h.compared u, ∀ y ∈ h.compared v, ∀ z ∈ h.compared w,
      (R x y → R y z → R x z) ∧ (R z y → R y x → R z x)) : h.Agree R u w := by
  cases huv with
  | same => exact hvw
  | lists helements =>
    cases hvw with
    | same => exact .lists helements
    | lists helements' =>
      exact .lists (forall₂_trans helements helements' fun x hx y hy z hz => (hR x hx y hy z hz).1)
  | maps hentries =>
    cases hvw with
    | same => exact .maps hentries
    | maps hentries' =>
      exact .maps (hentries'.trans hentries fun z hz y hy x hx => (hR x hx y hy z hz).2)

/-- The comparison takes such a step. -/
theorem equalTo_succ_iff (hh : h.Recorded) (hv : v.isFloating = false) :
    h.equalTo (n + 1) v w = some true ↔ h.Agree (fun x y => h.equalTo n x y = some true) v w := by
  rw [equalTo.eq_def]
  dsimp only
  split
  · cases hv
  · cases hv
  · rename_i i j
    rw [agree_list, List.forall₂_iff_zip]
    split
    · rename_i hij
      exact iff_of_true rfl (Or.inl hij)
    · rename_i hij
      split
      · rename_i hlength
        exact iff_of_false nofun fun helements => helements.elim hij fun hall => hlength hall.1
      · rename_i hlength
        rw [not_not] at hlength
        simp [hij, hlength, allM_eq_true]
  · rename_i i j
    rw [agree_map, (hh.consistent i).matches_iff (hh.consistent j)]
    split
    · rename_i hij
      exact iff_of_true rfl (Or.inl hij)
    · rename_i hij
      split
      · rename_i hsize
        exact iff_of_false nofun fun hentries => hentries.elim hij fun hall => hsize hall.1
      · rename_i hsize
        rw [not_not] at hsize
        simp only [allM_eq_true, hij, hsize, true_and, false_or]
        refine forall₂_congr fun e _ => ?_
        cases (h.mapAt j).find? e.1 <;> simp
  -- not two lists and not two maps: `==` decides
  · rename_i hlists hmaps
    constructor
    · intro heq
      obtain rfl : v = w := by simpa using heq
      exact .same v
    · rintro (_ | _ | _)
      · simp
      · exact absurd rfl (hlists _ _ rfl)
      · exact absurd rfl (hmaps _ _ rfl)

/-! ## The comparison -/

/-- Two values are structurally equal. -/
def Equal (h : Heap) (v w : Value) : Prop := h.structurallyEqual v w = .ok true

theorem structurallyEqual_iff : h.structurallyEqual v w = .ok b ↔ h.equalTo h.pairBound v w = some b := by
  rw [structurallyEqual]
  cases h.equalTo h.pairBound v w <;> simp [Checked.ofEnding]

/-- What one side of ends is compared with says what it says down to any depth. -/
theorem equal_of_equalTo (hv : h.Acyclic v ∨ h.Acyclic w) (hn : h.equalTo n v w = some true) :
    h.Equal v w := by
  obtain ⟨c, hc⟩ := structurallyEqual_ends hv
  have hmax := equalTo_mono (Nat.le_max_right n h.pairBound) (structurallyEqual_iff.mp hc)
  rw [equalTo_mono (Nat.le_max_left n h.pairBound) hn] at hmax
  cases hmax
  exact hc

/-- What ends is compared step by step. -/
theorem equal_iff (hh : h.Recorded) (hv : h.Plain v) : h.Equal v w ↔ h.Agree h.Equal v w := by
  constructor
  · intro hvw
    have hstep : h.equalTo (h.pairBound - 1 + 1) v w = some true := structurallyEqual_iff.mp hvw
    rw [equalTo_succ_iff hh (hv.exact v .refl)] at hstep
    refine hstep.imp fun x hx y hy => ?_
    have hends := (hv.compared hx).acyclic
    exact ⟨equal_of_equalTo (Or.inl hends), equal_of_equalTo (Or.inr hends)⟩
  · intro hvw
    apply equal_of_equalTo (Or.inl hv.acyclic) (n := h.pairBound + 1)
    rw [equalTo_succ_iff hh (hv.exact v .refl)]
    exact hvw.imp fun x _ y _ => ⟨structurallyEqual_iff.mp, structurallyEqual_iff.mp⟩

theorem Plain.equal_self (hh : h.Recorded) (hv : h.Plain v) : h.Equal v v :=
  (equal_iff hh hv).mpr (.same v)

theorem Plain.equal_comm (hh : h.Recorded) (hv : h.Plain v) (hw : h.Plain w) :
    h.Equal v w ↔ h.Equal w v := by
  have hacc : Acc (fun y x => y ∈ h.parts x) v := hv.acyclic
  -- by induction on what the first value is compared by
  induction hacc generalizing w with
  | intro v _ ih =>
    have hpart : ∀ x ∈ h.compared v, ∀ y ∈ h.compared w, (h.Equal x y ↔ h.Equal y x) :=
      fun x hx y hy => ih x (compared_subset hx) (hv.compared hx) (hw.compared hy)
    rw [equal_iff hh hv, equal_iff hh hw]
    constructor
    · intro hvw
      apply Agree.flip (R := flip h.Equal)
      exact hvw.imp fun x hx y hy => ⟨(hpart x hx y hy).mp, (hpart x hx y hy).mpr⟩
    · intro hwv
      exact hwv.flip.imp fun x hx y hy => ⟨(hpart x hx y hy).mpr, (hpart x hx y hy).mp⟩

theorem Plain.equal_trans (hh : h.Recorded) (hu : h.Plain u) (hv : h.Plain v) (hw : h.Plain w)
    (huv : h.Equal u v) (hvw : h.Equal v w) : h.Equal u w := by
  have hacc : Acc (fun y x => y ∈ h.parts x) u := hu.acyclic
  induction hacc generalizing v w with
  | intro u _ ih =>
    rw [equal_iff hh hu] at huv ⊢
    rw [equal_iff hh hv] at hvw
    refine huv.trans hvw fun x hx y hy z hz => ?_
    have hx' := hu.compared hx
    have hy' := hv.compared hy
    have hz' := hw.compared hz
    have hxyz : h.Equal x y → h.Equal y z → h.Equal x z :=
      ih x (compared_subset hx) hx' hy' hz'
    -- the values of maps are compared the other way round
    rw [hz'.equal_comm hh hy', hy'.equal_comm hh hx', hz'.equal_comm hh hx']
    exact ⟨hxyz, fun hyz hxy => hxyz hxy hyz⟩

/-- Lists are equal if they are as long and their elements are equal, place by place. -/
theorem equal_list_iff {i j : Nat} (hh : h.Recorded) (hi : h.Plain (.list i)) :
    h.Equal (.list i) (.list j) ↔
      List.Forall₂ h.Equal (h.sequence i).toList (h.sequence j).toList := by
  rw [equal_iff hh hi, agree_list, or_iff_right_of_imp]
  rintro rfl
  exact List.forall₂_same.mpr fun x hx => Plain.equal_self hh (hi.part hx)

/-- Maps are equal if they have the same keys, with equal values. -/
theorem equal_map_iff {i j : Nat} (hh : h.Recorded) (hi : h.Plain (.map i)) (hj : h.Plain (.map j)) :
    h.Equal (.map i) (.map j) ↔ (h.mapAt i).Matches h.Equal (h.mapAt j) := by
  rw [hi.equal_comm hh hj, equal_iff hh hj, agree_map, or_iff_right_of_imp]
  rintro rfl
  exact (hh.consistent j).matches_self fun x hx => Plain.equal_self hh (hj.compared hx)

/-! ## Equality of any two values -/

/-- Structural equality says the same in both orders. -/
theorem Plain.structurallyEqual_comm (hh : h.Recorded) (hv : h.Plain v) (hw : h.Plain w) :
    ∃ b, h.structurallyEqual v w = .ok b ∧ h.structurallyEqual w v = .ok b := by
  obtain ⟨b, hb⟩ := structurallyEqual_ends (w := w) (Or.inl hv.acyclic)
  obtain ⟨c, hc⟩ := structurallyEqual_ends (w := v) (Or.inl hw.acyclic)
  have hcomm := hv.equal_comm hh hw
  rw [Equal, Equal, hb, hc, Except.ok.injEq, Except.ok.injEq, ← Bool.eq_iff_iff] at hcomm
  exact ⟨b, hb, by rw [hcomm, hc]⟩

/-- Whether two values are equal is said, and the same in both orders. -/
def Impartial (h : Heap) (v w : Value) : Prop :=
  ∃ b, h.valuesEqual v w = .ok b ∧ h.valuesEqual w v = .ok b

theorem Impartial.symm (hvw : h.Impartial v w) : h.Impartial w v :=
  hvw.imp fun _ hb => ⟨hb.2, hb.1⟩

theorem impartial_null (h : Heap) (w : Value) : h.Impartial .null w :=
  ⟨w.isNull, by cases w <;> exact ⟨rfl, rfl⟩⟩

theorem impartial_str (hw : h.Acyclic w) (x : String) : h.Impartial (.str x) w := by
  by_cases hnull : w = .null
  · subst hnull
    exact (impartial_null h (.str x)).symm
  · obtain ⟨t, ht⟩ := (render_ends_iff h w).mpr hw
    obtain ⟨hleft, hright⟩ := valuesEqual_str (h := h) hnull x
    rw [ht] at hleft hright
    refine ⟨x == t, hleft, ?_⟩
    rw [hright]
    exact congrArg Except.ok BEq.comm

theorem impartial_structured (hh : h.Recorded) (hv : h.Plain v) (hw : h.Plain w)
    (hstructured : v.isStructured) : h.Impartial v w := by
  have hstructures := hv.structurallyEqual_comm hh hw
  cases w with
  | null => exact (impartial_null h v).symm
  | str x => exact (impartial_str hv.acyclic x).symm
  | _ =>
    cases v with
    | list i | map i => exact hstructures
    | _ => cases hstructured

theorem rank_general_comm (p q : Rank) : p.general q = q.general p := by
  cases p <;> cases q <;> rfl

theorem promote?_comm {m n : Int} (hv : integer? v = some m) (hw : integer? w = some n) :
    promote? v w = promote? w v := by
  obtain ⟨p, q, hp, hq, hpq, _⟩ := exists_promote hv hw
  obtain ⟨q', p', hq', hp', hqp, _⟩ := exists_promote hw hv
  cases hp.symm.trans hp'
  cases hq.symm.trans hq'
  rw [hpq, hqp, rank_general_comm]

/-- What is not a number is equal to what is the same storage. -/
theorem valuesEqual_storage (hv : v.isSingle) (hw : w.isSingle)
    (hnone : promote? v w = none) : h.valuesEqual v w = .ok (v.sameStorage w) := by
  unfold valuesEqual
  split <;> try first | cases hv | cases hw
  rw [hnone]

theorem promote?_eq_none (hv : v.isSingle) (hrank : Rank.of? v = none) :
    promote? v w = none ∧ promote? w v = none := by
  unfold promote?
  rw [hrank]
  cases Rank.of? w with
  | none => exact ⟨rfl, rfl⟩
  | some p =>
    cases v with
    | str x => cases hv
    | _ => exact ⟨rfl, rfl⟩

theorem rank_of_integer?_eq_none (hv : integer? v = none) (hfloating : v.isFloating = false) :
    Rank.of? v = none := by
  cases v with
  | float x | double x => cases hfloating
  | _ => first | rfl | cases hv

theorem impartial_storage (hv : v.isSingle) (hw : w.isSingle) (hrank : Rank.of? v = none) :
    h.Impartial v w := by
  obtain ⟨hvw, hwv⟩ := promote?_eq_none (w := w) hv hrank
  refine ⟨v.sameStorage w, valuesEqual_storage hv hw hvw, ?_⟩
  rw [valuesEqual_storage hw hv hwv, Except.ok.injEq, Bool.eq_iff_iff, Value.sameStorage_iff,
    Value.sameStorage_iff]
  constructor
  · rintro ⟨hstored, rfl⟩
    exact ⟨hstored, rfl⟩
  · rintro ⟨hstored, rfl⟩
    exact ⟨hstored, rfl⟩

theorem impartial_integers {m n : Int} (hv : integer? v = some m) (hw : integer? w = some n) :
    h.Impartial v w := by
  obtain ⟨ty, a, b, hp⟩ := exists_promotes hv hw
  have hp' : Promotes w v ty b a := by
    refine ⟨?_, hp.right, hp.left⟩
    rw [← promote?_comm hv hw]
    exact hp.type
  refine ⟨decide (a = b), valuesEqual_of_promotes hv hw hp, ?_⟩
  rw [valuesEqual_of_promotes hw hv hp']
  exact congrArg Except.ok (decide_eq_decide.mpr eq_comm)

theorem impartial_single (hv : v.isSingle) (hw : w.isSingle) (hv' : v.isFloating = false)
    (hw' : w.isFloating = false) : h.Impartial v w := by
  cases hm : integer? v with
  | none => exact impartial_storage hv hw (rank_of_integer?_eq_none hm hv')
  | some m =>
    cases hn : integer? w with
    | none => exact (impartial_storage hw hv (rank_of_integer?_eq_none hn hw')).symm
    | some n => exact impartial_integers hm hn

theorem Plain.impartial (hh : h.Recorded) (hv : h.Plain v) (hw : h.Plain w) : h.Impartial v w := by
  have hkinds : ∀ u : Value, u = .null ∨ (∃ x, u = .str x) ∨ u.isStructured ∨ u.isSingle := by
    intro u
    cases u <;> simp [Value.isStructured, Value.isSingle]
  obtain rfl | ⟨x, rfl⟩ | hstructured | hsingle := hkinds v
  · exact impartial_null h w
  · exact impartial_str hw.acyclic x
  · exact impartial_structured hh hv hw hstructured
  · obtain rfl | ⟨x, rfl⟩ | hstructured | hsingle' := hkinds w
    · exact (impartial_null h v).symm
    · exact (impartial_str hv.acyclic x).symm
    · exact (impartial_structured hh hw hv hstructured).symm
    · exact impartial_single hsingle hsingle' (hv.exact v .refl) (hw.exact w .refl)

end Heap

/-- **Structural equality is an equivalence that ignores the order of maps.**  Among values in which no path
goes on for ever and no number is of floating point, it is reflexive, symmetric and transitive, and it
always gives an answer.  Two lists are equal just when they have the same length and equal elements, place
by place, and two maps just when they have the same keys with equal values, whatever histories they have.
Whether two such values are equal when no class says so is always said, and the same in both orders. -/
theorem equality_lawful (h : Heap) (hh : h.Recorded) :
    (∀ v, h.Plain v → h.Equal v v) ∧
    (∀ v w, h.Plain v → h.Plain w → h.Equal v w → h.Equal w v) ∧
    (∀ u v w, h.Plain u → h.Plain v → h.Plain w → h.Equal u v → h.Equal v w → h.Equal u w) ∧
    (∀ v w, h.Plain v → h.Plain w → ∃ b, h.structurallyEqual v w = .ok b) ∧
    (∀ i j, h.Plain (.list i) → h.Plain (.list j) →
      (h.Equal (.list i) (.list j) ↔
        List.Forall₂ h.Equal (h.sequence i).toList (h.sequence j).toList)) ∧
    (∀ i j, h.Plain (.map i) → h.Plain (.map j) →
      (h.Equal (.map i) (.map j) ↔ (h.mapAt i).Matches h.Equal (h.mapAt j))) ∧
    ∀ v w, h.Plain v → h.Plain w →
      ∃ b, h.valuesEqual v w = .ok b ∧ h.valuesEqual w v = .ok b := by
  refine ⟨fun v hv => hv.equal_self hh, fun v w hv hw => (hv.equal_comm hh hw).mp,
    fun u v w hu hv hw => hu.equal_trans hh hv hw, fun v w hv hw => ?_,
    fun i j hi _ => Heap.equal_list_iff hh hi, fun i j hi hj => Heap.equal_map_iff hh hi hj,
    fun v w hv hw => hv.impartial hh hw⟩
  exact Heap.structurallyEqual_ends (Or.inl hv.acyclic)

/-- Two lists, with two maps in them that have come about in different ways. -/
def reorderedHeap : Heap :=
  { Heap.empty with
    sequences := #[#[.int 1, .map 0], #[.int 1, .map 1]]
    maps := #[.after [.insert (.str "b") .null, .insert (.str "a") (.int 2)],
      .after [.insert (.str "c") .null, .insert (.str "b") .null, .insert (.str "a") (.int 2),
        .remove (.str "c")]] }

/-- The maps have their entries in different orders, and the lists are equal. -/
theorem equality_lawful_reordered :
    let h := reorderedHeap
    h.Recorded ∧ (h.mapAt 0).keys ≠ (h.mapAt 1).keys ∧
    h.Equal (.list 1) (.list 1) ∧ h.Equal (.list 0) (.list 1) ∧ h.Equal (.list 1) (.list 0) ∧
    h.Equal (.list 0) (.list 0) ∧ (∃ b, h.structurallyEqual (.list 0) (.list 1) = .ok b) ∧
    List.Forall₂ h.Equal (h.sequence 0).toList (h.sequence 1).toList ∧
    (h.mapAt 0).Matches h.Equal (h.mapAt 1) ∧
    ∃ b, h.valuesEqual (.list 0) (.list 1) = .ok b ∧ h.valuesEqual (.list 1) (.list 0) = .ok b := by
  intro h
  have hh : h.Recorded := by
    intro i
    rcases i with _ | _ | i
    · exact ⟨_, rfl⟩
    · exact ⟨_, rfl⟩
    · exact ⟨[], rfl⟩
  let points : List Value :=
    [.list 0, .list 1, .int 1, .map 0, .map 1, .str "a", .str "b", .null, .int 2]
  have hclosed : ∀ v ∈ points, ∀ w ∈ h.parts v, w ∈ points := by decide
  have hexact : ∀ v ∈ points, v.isFloating = false := by decide
  have hends : ∀ v ∈ points, EndsWithin h.parts 4 v := by decide
  have hplain : ∀ v ∈ points, h.Plain v := fun v hv =>
    ⟨(hends v hv).ends, fun w hw => hexact w (hw.mem hclosed hv)⟩
  obtain ⟨hrefl, hsymm, htrans, hanswers, hlist, hmap, hequal⟩ := equality_lawful h hh
  have h₀ : h.Plain (.list 0) := hplain _ (by decide)
  have h₁ : h.Plain (.list 1) := hplain _ (by decide)
  have hlists : h.Equal (.list 0) (.list 1) := by
    show h.structurallyEqual (.list 0) (.list 1) = .ok true
    decide
  have hback := hsymm _ _ h₀ h₁ hlists
  have helements := (hlist 0 1 h₀ h₁).mp hlists
  have hmaps : h.Equal (.map 0) (.map 1) := by
    cases helements with
    | cons _ hrest =>
      cases hrest with
      | cons hmaps _ => exact hmaps
  exact ⟨hh, by decide, hrefl _ h₁, hlists, hback, htrans _ _ _ h₀ h₁ h₀ hlists hback,
    hanswers _ _ h₀ h₁, helements,
    (hmap 0 1 (hplain _ (by decide)) (hplain _ (by decide))).mp hmaps, hequal _ _ h₀ h₁⟩

end TreeScript
