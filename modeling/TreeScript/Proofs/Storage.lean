import TreeScript.Heap.Basic

/-
# Cells of storage

Storage is an array of cells, and a cell that is not there reads as the default.  A cell that is made
gets the next number and leaves the others as they are; one that is replaced keeps its number.
-/

namespace TreeScript

variable {α : Type} [Inhabited α]

/-! ## Reading a cell afterwards -/

theorem getD_push_lt (items : Array α) (v : α) {a : Nat} (ha : a < items.size) :
    (items.push v).getD a default = items.getD a default := by
  rw [Array.getD_eq_getD_getElem?, Array.getElem?_push_lt ha, Array.getD_eq_getD_getElem?,
    Array.getElem?_eq_getElem ha]

theorem getD_push_size (items : Array α) (v : α) : (items.push v).getD items.size default = v := by
  rw [Array.getD_eq_getD_getElem?, Array.getElem?_push_size]
  rfl

theorem getD_modify (items : Array α) (c a : Nat) (f : α → α) :
    (items.modify c f).getD a default =
      if c = a ∧ a < items.size then f (items.getD a default) else items.getD a default := by
  simp only [Array.getD_eq_getD_getElem?, Array.getElem?_modify]
  by_cases hc : c = a
  · by_cases ha : a < items.size
    · simp [hc, ha]
    · simp [hc, ha]
  · simp [hc]

omit [Inhabited α] in
/-- To replace a cell is to change it to what it is replaced by. -/
theorem setIfInBounds_eq_modify (items : Array α) (i : Nat) (a : α) :
    items.setIfInBounds i a = items.modify i fun _ => a := by
  refine Array.ext_getElem? fun j => ?_
  rw [Array.getElem?_setIfInBounds, Array.getElem?_modify]
  by_cases hi : i = j
  · subst hi
    by_cases hlt : i < items.size <;> simp [hlt]
  · rw [if_neg hi, if_neg hi]

theorem getD_setIfInBounds (items : Array α) (i j : Nat) (a : α) :
    (items.setIfInBounds i a).getD j default =
      if i = j ∧ j < items.size then a else items.getD j default := by
  rw [setIfInBounds_eq_modify, getD_modify]

theorem getD_of_size_le {items : Array α} {i : Nat} (hi : items.size ≤ i) :
    items.getD i default = default := by
  rw [Array.getD, dif_neg (Nat.not_lt.mpr hi)]

/-! ## A property of all cells -/

section
variable {items : Array α} {P : α → Prop} (h : ∀ i, P (items.getD i default))
include h

theorem forall_push {a : α} (ha : P a) (i : Nat) : P ((items.push a).getD i default) := by
  rcases Nat.lt_trichotomy i items.size with hi | rfl | hi
  · rw [getD_push_lt items a hi]
    exact h i
  · rw [getD_push_size]
    exact ha
  · have hi' : (items.push a).size ≤ i := by
      rw [Array.size_push]
      exact hi
    rw [getD_of_size_le hi', ← getD_of_size_le (Nat.le_of_lt hi)]
    exact h i

theorem forall_modify {c : Nat} {f : α → α} (hf : ∀ a, P a → P (f a)) (i : Nat) :
    P ((items.modify c f).getD i default) := by
  rw [getD_modify]
  split
  · exact hf _ (h i)
  · exact h i

theorem forall_set {c : Nat} {a : α} (ha : P a) (i : Nat) :
    P ((items.setIfInBounds c a).getD i default) := by
  rw [setIfInBounds_eq_modify]
  exact forall_modify h (fun _ _ => ha) i

end

/-! ## The same on two sides -/

/-- Storage that is made on both sides is related if it was, and the new one is. -/
theorem forall_lt_push {items items' : Array α} {R : α → α → Prop} (hsize : items.size = items'.size)
    (h : ∀ i < items.size, R (items.getD i default) (items'.getD i default)) {a b : α} (hab : R a b) :
    ∀ i < (items.push a).size, R ((items.push a).getD i default) ((items'.push b).getD i default) := by
  intro i hi
  rw [Array.size_push] at hi
  rcases Nat.lt_succ_iff_lt_or_eq.mp hi with hi | rfl
  · rw [getD_push_lt _ _ hi, getD_push_lt _ _ (hsize ▸ hi)]
    exact h i hi
  · rw [getD_push_size, hsize, getD_push_size]
    exact hab

theorem getD_push_eq {β : Type} {items items' : Array α} {f : α → β}
    (hsize : items.size = items'.size)
    (h : ∀ i, f (items.getD i default) = f (items'.getD i default)) {a b : α} (hab : f a = f b)
    (i : Nat) : f ((items.push a).getD i default) = f ((items'.push b).getD i default) := by
  by_cases hi : i < (items.push a).size
  · exact forall_lt_push (R := fun a b => f a = f b) hsize (fun i _ => h i) hab i hi
  · have hi' : ¬ i < (items'.push b).size := by
      rw [Array.size_push, ← hsize]
      rwa [Array.size_push] at hi
    rw [Array.getD, Array.getD, dif_neg hi, dif_neg hi']

/-- Storage that is replaced on both sides is related if it was, and the new one is. -/
theorem getD_set {items items' : Array α} {R : α → α → Prop} (hsize : items.size = items'.size)
    {i j : Nat} (h : R (items.getD j default) (items'.getD j default)) {a b : α} (hab : R a b) :
    R ((items.setIfInBounds i a).getD j default) ((items'.setIfInBounds i b).getD j default) := by
  rw [getD_setIfInBounds, getD_setIfInBounds, ← hsize]
  split
  · exact hab
  · exact h

/-! ## Parameters and coroutines -/

namespace Heap

/-- Declaring concerns slots and scopes alone. -/
theorem declareAll_eq {β : Type} {p : Heap → β}
    (hp : ∀ h slots scopes, p { h with slots := slots, scopes := scopes } = p h) (h : Heap) (c : Nat)
    (ps : List Param) (args : List Value) : p (h.declareAll c ps args) = p h := by
  unfold declareAll
  generalize ps.zip args = pairs
  induction pairs generalizing h with
  | nil => rfl
  | cons _ pairs ih => exact (ih _).trans (hp h _ _)

/-- A coroutine that is made is the last one, and has not run. -/
theorem coroutines_newCoroutine (h : Heap) (name : String) (ps : List Param) (body : Node)
    (args : List Value) (origin : Nat) :
    (h.newCoroutine name ps body args origin).2.coroutines =
      h.coroutines.push ⟨name, ps, args, body, origin, h.scopes.size, .created, []⟩ := by
  have hkept := (h.newScope origin).2.declareAll_eq (p := Heap.coroutines) (fun _ _ _ => rfl)
    h.scopes.size ps args
  let c : Coroutine := ⟨name, ps, args, body, origin, h.scopes.size, .created, []⟩
  exact congrArg (fun coroutines => coroutines.push c) hkept

end Heap
end TreeScript
