import Mathlib.Data.List.Forall2
import Mathlib.Data.Option.Defs
import Mathlib.Logic.Relator
import TreeScript.Proofs.Isolation.Schedule
import TreeScript.Proofs.Pooling.Scopes

/-
# The storage of a coroutine in two runs

A coroutine that is asked alone and the same coroutine in company make the same scopes and slots one after the
other, but these get different numbers, since others make some in between.  A `World` says which scopes and
slots of the two runs are the same.  The coroutine owns them: they are the scopes that it made and the slots
that it declared, and no scope or slot of one run is two of the other.

The chain of scopes from an owned scope passes owned scopes until it leaves them at `origin`.  As long as a
name is found on this part of the chain, it leads to slots that are the same, and what lies further out does
not show.
-/

namespace TreeScript

/-! ## Searching -/

/-- A search that ends in a part where two lists are related finds related elements. -/
theorem findSome?_of_forall₂ {α β γ : Type} {R : α → β → Prop} {f : α → Option γ} {g : β → Option γ}
    {own : List α} {own' : List β} (h : List.Forall₂ R own own')
    (hfg : ∀ a b, R a b → (f a).isSome = (g b).isSome) (hfound : own.any fun a => (f a).isSome)
    (outer : List α) (outer' : List β) :
    ∃ a b, R a b ∧ (f a).isSome = true ∧ (own ++ outer).find? (fun a => (f a).isSome) = some a ∧
      (own' ++ outer').find? (fun b => (g b).isSome) = some b ∧
      (own ++ outer).findSome? f = f a ∧ (own' ++ outer').findSome? g = g b := by
  induction h with
  | nil => cases hfound
  | @cons a b own own' hab h ih =>
    -- found in the first element on both sides, or in the first of neither
    cases ha : f a with
    | some i =>
      obtain ⟨j, hb⟩ := Option.isSome_iff_exists.mp ((hfg a b hab).symm.trans (congrArg Option.isSome ha))
      refine ⟨a, b, hab, ?_⟩
      simp [ha, hb]
    | none =>
      have hb : g b = none := by
        have hnone := hfg a b hab
        rw [ha] at hnone
        exact Option.not_isSome_iff_eq_none.mp (by rw [← hnone]; exact Bool.false_ne_true)
      simp only [List.any_cons, ha, Option.isSome_none, Bool.false_or] at hfound
      obtain ⟨a', b', hab', hsome, h₁, h₂, h₃, h₄⟩ := ih hfound
      refine ⟨a', b', hab', hsome, ?_⟩
      simp [ha, hb, h₁, h₂, h₃, h₄]

namespace Isolation

/-! ## Worlds -/

/-- Which scopes and slots of two runs are the same. -/
structure World where
  scope : Nat → Nat → Prop
  slot : Nat → Nat → Prop

namespace World

/-- Nothing has been made. -/
def empty : World := ⟨fun _ _ => False, fun _ _ => False⟩

/-- A scope is made. -/
def addScope (w : World) (n n' : Nat) : World :=
  { w with scope := fun c c' => (c = n ∧ c' = n') ∨ w.scope c c' }

/-- A slot is made. -/
def addSlot (w : World) (n n' : Nat) : World :=
  { w with slot := fun i i' => (i = n ∧ i' = n') ∨ w.slot i i' }

end World

/-- A pair with two new numbers keeps a relation one to one. -/
theorem biUnique_insert {R : Nat → Nat → Prop} {n n' : Nat} (hR : Relator.BiUnique R)
    (hlt : ∀ {a a'}, R a a' → a < n ∧ a' < n') :
    Relator.BiUnique fun a a' => (a = n ∧ a' = n') ∨ R a a' := by
  constructor
  · rintro a b c (⟨rfl, rfl⟩ | ha) (⟨rfl, hc⟩ | hb)
    · rfl
    · exact absurd (hlt hb).2 (Nat.lt_irrefl _)
    · exact absurd (hlt ha).2 (hc ▸ Nat.lt_irrefl _)
    · exact hR.1 ha hb
  · rintro a b c (⟨rfl, rfl⟩ | hb) (⟨hc, rfl⟩ | hc)
    · rfl
    · exact absurd (hlt hc).1 (Nat.lt_irrefl _)
    · exact absurd (hlt hb).1 (hc ▸ Nat.lt_irrefl _)
    · exact hR.2 hb hc

/-! ## Storage -/

/-- Slots of one type that hold the same value, if it is primitive. -/
structure SameSlot (a b : Slot) : Prop where
  type : a.type = b.type
  isMutable : a.isMutable = b.isMutable
  value : a.value.Primitive → a.value = b.value

/-- The scopes and slots that a coroutine owns hold the same in two heaps. -/
structure Twins (origin : Nat) (w : World) (h h' : Heap) : Prop where
  known : origin < h.scopes.size
  inside : ∀ {c c'}, w.scope c c' → c ≠ origin
  scope_lt : ∀ {c c'}, w.scope c c' → c < h.scopes.size ∧ c' < h'.scopes.size
  scope_unique : Relator.BiUnique w.scope
  /-- The way out from a scope passes scopes that are the same, and then `origin`. -/
  around : ∀ {c c'}, w.scope c c' → ∃ own own' outer outer', h.chain c = own ++ origin :: outer ∧
    h'.chain c' = own' ++ outer' ∧ List.Forall₂ w.scope own own'
  bound : ∀ {c c'}, w.scope c c' → ∀ x, Option.Rel w.slot (h.lookupLocal c x) (h'.lookupLocal c' x)
  slot_lt : ∀ {i i'}, w.slot i i' → i < h.slots.size ∧ i' < h'.slots.size
  slot_unique : Relator.BiUnique w.slot
  slot : ∀ {i i'}, w.slot i i' → SameSlot (h.slot i) (h'.slot i')

namespace Twins

variable {origin : Nat} {w : World} {h h' : Heap} {c c' i i' : Nat}

/-- Where nothing has been made, heaps are twins. -/
theorem empty (ho : origin < h.scopes.size) : Twins origin .empty h h' where
  known := ho
  inside := nofun
  scope_lt := nofun
  scope_unique := ⟨nofun, nofun⟩
  around := nofun
  bound := nofun
  slot_lt := nofun
  slot_unique := ⟨nofun, nofun⟩
  slot := nofun

/-! ### Looking up -/

theorem isSome_lookupLocal (T : Twins origin w h h') (hc : w.scope c c') (x : String) :
    (h.lookupLocal c x).isSome = (h'.lookupLocal c' x).isSome := by
  have hbound := T.bound hc x
  generalize h.lookupLocal c x = i at hbound ⊢
  generalize h'.lookupLocal c' x = i' at hbound ⊢
  cases hbound <;> rfl

/-- A name that the coroutine owns leads to slots that are the same, which are bound in scopes that are the
same. -/
theorem owned (T : Twins origin w h h') (hc : w.scope c c') {x : String}
    (howns : h.owns origin c x = true) :
    ∃ a a' i i', w.scope a a' ∧ w.slot i i' ∧ h.lookup c x = some i ∧ h'.lookup c' x = some i' ∧
      (h.chain c).find? (fun a => (h.lookupLocal a x).isSome) = some a ∧
      (h'.chain c').find? (fun a => (h'.lookupLocal a x).isSome) = some a' := by
  obtain ⟨own, own', outer, outer', hchain, hchain', hown⟩ := T.around hc
  have hinside : ∀ a ∈ own, a ≠ origin :=
    ((List.forall₂_and_left own own').mp (hown.imp fun a b hab => ⟨T.inside hab, hab⟩)).1
  have htake : (h.chain c).takeWhile (fun a => a ≠ origin) = own := by
    rw [hchain, List.takeWhile_append_of_pos fun a ha => decide_eq_true (hinside a ha)]
    simp
  unfold Heap.owns at howns
  rw [htake] at howns
  obtain ⟨a, a', haa', hsome, hfind, hfind', hlookup, hlookup'⟩ :=
    findSome?_of_forall₂ (f := fun a => h.lookupLocal a x) (g := fun a => h'.lookupLocal a x) hown
      (fun a b hab => T.isSome_lookupLocal hab x) howns (origin :: outer) outer'
  obtain ⟨i, hi⟩ := Option.isSome_iff_exists.mp hsome
  have hbound := T.bound haa' x
  rw [hi] at hbound hlookup
  generalize hi' : h'.lookupLocal a' x = j at hbound hlookup'
  cases hbound with
  | some hslot =>
    refine ⟨a, a', i, _, haa', hslot, ?_, ?_, ?_, ?_⟩
    · rw [Heap.lookup, hchain]
      exact hlookup
    · rw [Heap.lookup, hchain']
      exact hlookup'
    · rw [hchain]
      exact hfind
    · rw [hchain']
      exact hfind'

/-! ### Making scopes -/

/-- A scope that is made has a place of its own. -/
theorem pushScope (T : Twins origin w h h') {around around' own own' outer outer' : List Nat}
    (haround : around = own ++ origin :: outer) (haround' : around' = own' ++ outer')
    (hown : List.Forall₂ w.scope own own') :
    Twins origin (w.addScope h.scopes.size h'.scopes.size)
      { h with scopes := h.scopes.push ⟨.empty, around⟩ }
      { h' with scopes := h'.scopes.push ⟨.empty, around'⟩ } := by
  have hold : ∀ (h : Heap) (s : TreeScript.Scope) {a : Nat}, a < h.scopes.size →
      ({ h with scopes := h.scopes.push s } : Heap).scope a = h.scope a := fun h s a ha =>
    getD_push_lt h.scopes s ha
  have hnew : ∀ (h : Heap) (s : TreeScript.Scope),
      ({ h with scopes := h.scopes.push s } : Heap).scope h.scopes.size = s := fun h s =>
    getD_push_size h.scopes s
  -- the two new scopes are twins, and the others have the twins that they had
  refine ⟨?_, ?_, ?_, biUnique_insert T.scope_unique T.scope_lt, ?_, ?_, T.slot_lt, T.slot_unique, T.slot⟩
  · rw [Array.size_push]
    exact Nat.lt_succ_of_lt T.known
  · rintro c c' (⟨rfl, rfl⟩ | hc)
    · exact Nat.ne_of_gt T.known
    · exact T.inside hc
  · rw [Array.size_push, Array.size_push]
    rintro c c' (⟨rfl, rfl⟩ | hc)
    · exact ⟨Nat.lt_succ_self _, Nat.lt_succ_self _⟩
    · exact (T.scope_lt hc).imp Nat.lt_succ_of_lt Nat.lt_succ_of_lt
  · have hgrow : ∀ {own own' : List Nat}, List.Forall₂ w.scope own own' →
        List.Forall₂ (w.addScope h.scopes.size h'.scopes.size).scope own own' := fun h =>
      h.imp fun _ _ hc => Or.inr hc
    rintro c c' (⟨rfl, rfl⟩ | hc)
    · refine ⟨_ :: own, _ :: own', outer, outer', ?_, ?_, .cons (Or.inl ⟨rfl, rfl⟩) (hgrow hown)⟩
      · rw [Heap.chain, hnew, haround]
        rfl
      · rw [Heap.chain, hnew, haround']
        rfl
    · obtain ⟨hlt, hlt'⟩ := T.scope_lt hc
      obtain ⟨own, own', outer, outer', hchain, hchain', hown⟩ := T.around hc
      refine ⟨own, own', outer, outer', ?_, ?_, hgrow hown⟩
      · rw [← hchain, Heap.chain, Heap.chain, hold h _ hlt]
      · rw [← hchain', Heap.chain, Heap.chain, hold h' _ hlt']
  · rintro c c' (⟨rfl, rfl⟩ | hc) x
    · rw [Heap.lookupLocal, Heap.lookupLocal, hnew, hnew]
      exact .none
    · obtain ⟨hlt, hlt'⟩ := T.scope_lt hc
      rw [Heap.lookupLocal, Heap.lookupLocal, hold h _ hlt, hold h' _ hlt']
      exact T.bound hc x

/-- A scope is made inside one that the coroutine owns. -/
theorem newScope (T : Twins origin w h h') (hc : w.scope c c') :
    Twins origin (w.addScope h.scopes.size h'.scopes.size) (h.newScope c).2 (h'.newScope c').2 := by
  obtain ⟨own, own', outer, outer', hchain, hchain', hown⟩ := T.around hc
  exact T.pushScope hchain hchain' hown

/-- The scope of the coroutine is made. -/
theorem firstScope (T : Twins origin w h h') (origin' : Nat) :
    Twins origin (w.addScope h.scopes.size h'.scopes.size) (h.newScope origin).2
      (h'.newScope origin').2 :=
  have hnone : List.Forall₂ w.scope [] [] := .nil
  T.pushScope rfl rfl hnone

/-! ### Slots -/

theorem rel_addSlot {n n' : Nat} {i i' : Option Nat} (h : Option.Rel w.slot i i') :
    Option.Rel (w.addSlot n n').slot i i' := by
  cases h with
  | some hi => exact .some (Or.inr hi)
  | none => exact .none

/-- A slot is made. -/
theorem pushSlot (T : Twins origin w h h') {a b : Slot} (hab : SameSlot a b) :
    Twins origin (w.addSlot h.slots.size h'.slots.size) (h.newSlot a).2 (h'.newSlot b).2 := by
  refine ⟨T.known, T.inside, T.scope_lt, T.scope_unique, T.around, fun hc x => ?_, ?_,
    biUnique_insert T.slot_unique T.slot_lt, ?_⟩
  · exact rel_addSlot (T.bound hc x)
  · show ∀ {i i'}, _ → i < (h.slots.push a).size ∧ i' < (h'.slots.push b).size
    rw [Array.size_push, Array.size_push]
    rintro i i' (⟨rfl, rfl⟩ | hi)
    · exact ⟨Nat.lt_succ_self _, Nat.lt_succ_self _⟩
    · exact (T.slot_lt hi).imp Nat.lt_succ_of_lt Nat.lt_succ_of_lt
  · show ∀ {i i'}, _ → SameSlot ((h.slots.push a).getD i default) ((h'.slots.push b).getD i' default)
    rintro i i' (⟨rfl, rfl⟩ | hi)
    · rw [getD_push_size, getD_push_size]
      exact hab
    · obtain ⟨hlt, hlt'⟩ := T.slot_lt hi
      rw [getD_push_lt _ _ hlt, getD_push_lt _ _ hlt']
      exact T.slot hi

/-- A slot is written to. -/
theorem setValue (T : Twins origin w h h') (hi : w.slot i i') {v v' : Value}
    (hv : v.Primitive → v = v') : Twins origin w (h.setValue i v) (h'.setValue i' v') := by
  refine ⟨T.known, T.inside, T.scope_lt, T.scope_unique, T.around, T.bound, ?_, T.slot_unique, ?_⟩
  · show ∀ {j j'}, _ → j < (h.slots.modify i _).size ∧ j' < (h'.slots.modify i' _).size
    rw [Array.size_modify, Array.size_modify]
    exact T.slot_lt
  · intro j j' hj
    obtain ⟨hlt, hlt'⟩ := T.slot_lt hj
    have hsame := T.slot hj
    have hiff : i = j ↔ i' = j' := by
      constructor
      · rintro rfl
        exact T.slot_unique.2 hi hj
      · rintro rfl
        exact T.slot_unique.1 hi hj
    show SameSlot ((h.slots.modify i _).getD j default) ((h'.slots.modify i' _).getD j' default)
    rw [getD_modify, getD_modify]
    by_cases heq : i = j
    · rw [if_pos ⟨heq, hlt⟩, if_pos ⟨hiff.mp heq, hlt'⟩]
      exact ⟨hsame.type, hsame.isMutable, hv⟩
    · rw [if_neg fun h => heq h.1, if_neg fun h => heq (hiff.mpr h.1)]
      exact hsame

/-! ### Binding -/

/-- What scopes that are the same bind is changed in the same way. -/
theorem rebind (T : Twins origin w h h') (hc : w.scope c c') (f f' : Table String Nat → Table String Nat)
    (hf : ∀ x, Option.Rel w.slot ((f (h.scope c).bindings).find? x) ((f' (h'.scope c').bindings).find? x)) :
    Twins origin w { h with scopes := h.scopes.modify c (Pooling.rebind f) }
      { h' with scopes := h'.scopes.modify c' (Pooling.rebind f') } := by
  have hchain : ∀ (h : Heap) (c a : Nat) (f : Table String Nat → Table String Nat),
      ({ h with scopes := h.scopes.modify c (Pooling.rebind f) } : Heap).chain a = h.chain a :=
    fun h c a f => congrArg (a :: ·) (Pooling.ancestors_modify h.scopes c a f)
  refine ⟨?_, T.inside, ?_, T.scope_unique, ?_, ?_, T.slot_lt, T.slot_unique, T.slot⟩
  · rw [Array.size_modify]
    exact T.known
  · rw [Array.size_modify, Array.size_modify]
    exact T.scope_lt
  · intro a a' ha
    rw [hchain, hchain]
    exact T.around ha
  · intro a a' ha x
    obtain ⟨hlt, hlt'⟩ := T.scope_lt ha
    -- a scope has one twin, so the scopes in which something changes are met together
    have hiff : c = a ↔ c' = a' := by
      constructor
      · rintro rfl
        exact T.scope_unique.2 hc ha
      · rintro rfl
        exact T.scope_unique.1 hc ha
    show Option.Rel w.slot (Table.find? ((h.scopes.modify c _).getD a default).bindings x)
      (Table.find? ((h'.scopes.modify c' _).getD a' default).bindings x)
    rw [getD_modify, getD_modify]
    by_cases heq : c = a
    · rw [if_pos ⟨heq, hlt⟩, if_pos ⟨hiff.mp heq, hlt'⟩]
      obtain rfl := heq
      obtain rfl := hiff.mp rfl
      exact hf x
    · rw [if_neg fun h => heq h.1, if_neg fun h => heq (hiff.mpr h.1)]
      exact T.bound ha x

/-- A name is bound to a new slot. -/
theorem declareSlot (T : Twins origin w h h') (hc : w.scope c c') (x : String) {a b : Slot}
    (hab : SameSlot a b) :
    Twins origin (w.addSlot h.slots.size h'.slots.size) (h.declareSlot c x a) (h'.declareSlot c' x b) := by
  refine (T.pushSlot hab).rebind hc (fun t => t.insert x h.slots.size) (fun t => t.insert x h'.slots.size)
    fun y => ?_
  rw [Table.find?_insert, Table.find?_insert]
  split
  · exact .some (Or.inl ⟨rfl, rfl⟩)
  · exact rel_addSlot (T.bound hc y)

/-- A name that the coroutine owns is unbound. -/
theorem unbind (T : Twins origin w h h') (hc : w.scope c c') {x : String}
    (howns : h.owns origin c x = true) :
    ∃ a a', w.scope a a' ∧
      (h.unbind c x).2 = { h with scopes := h.scopes.modify a (Pooling.rebind fun t => t.erase x) } ∧
      (h'.unbind c' x).2 = { h' with scopes := h'.scopes.modify a' (Pooling.rebind fun t => t.erase x) } ∧
      Twins origin w (h.unbind c x).2 (h'.unbind c' x).2 := by
  obtain ⟨a, a', i, i', ha, -, -, -, hfind, hfind'⟩ := T.owned hc howns
  have hleft : (h.unbind c x).2 = { h with scopes := h.scopes.modify a (Pooling.rebind fun t => t.erase x) } := by
    rw [Heap.unbind, hfind]
    rfl
  have hright : (h'.unbind c' x).2 =
      { h' with scopes := h'.scopes.modify a' (Pooling.rebind fun t => t.erase x) } := by
    rw [Heap.unbind, hfind']
    rfl
  refine ⟨a, a', ha, hleft, hright, ?_⟩
  rw [hleft, hright]
  refine T.rebind ha _ _ fun y => ?_
  rw [Table.find?_erase, Table.find?_erase]
  split
  · exact .none
  · exact T.bound ha y

end Twins
end Isolation
end TreeScript
