import TreeScript.Proofs.Storage

/-
# Names in scopes

Binding, unbinding and clearing concern one scope alone, and only what it binds (`Heap.rebind`): the way from
a scope outwards never changes.  A name is looked up on this way, in the nearest scope that binds it
(`Heap.nearest?`), and that is also where it is unbound.
-/

namespace TreeScript

/-- What is found first is what the first item gives for which there is something. -/
theorem findSome?_eq_find?_bind {α β : Type} (f : α → Option β) (l : List α) :
    l.findSome? f = (l.find? fun a => (f a).isSome).bind f := by
  induction l with
  | nil => rfl
  | cons a l ih =>
    rw [List.findSome?_cons, List.find?_cons]
    cases ha : f a with
    | none => simp [ih]
    | some b => simp [ha]

theorem findSome?_congr {α β : Type} {f g : α → Option β} {l : List α} (h : ∀ a ∈ l, f a = g a) :
    l.findSome? f = l.findSome? g := by
  induction l with
  | nil => rfl
  | cons a l ih =>
    rw [List.findSome?_cons, List.findSome?_cons, h a List.mem_cons_self,
      ih fun b hb => h b (List.mem_cons_of_mem a hb)]

namespace Heap

variable {h : Heap} {a b c i parent : Nat} {x y : String} {ty : TypeKind} {v : Value}

/-! ## What a scope binds -/

/-- Change what a scope binds. -/
def rebind (h : Heap) (c : Nat) (f : Table String Nat → Table String Nat) : Heap :=
  { h with scopes := h.scopes.modify c fun s => { s with bindings := f s.bindings } }

section
variable (f : Table String Nat → Table String Nat)

theorem scope_rebind (a : Nat) :
    (h.rebind c f).scope a =
      if c = a ∧ a < h.scopes.size then { h.scope a with bindings := f (h.scope a).bindings }
      else h.scope a :=
  getD_modify ..

theorem size_scopes_rebind : (h.rebind c f).scopes.size = h.scopes.size := Array.size_modify

theorem chain_rebind (a : Nat) : (h.rebind c f).chain a = h.chain a := by
  rw [chain, scope_rebind]
  split <;> rfl

theorem lookupLocal_rebind (hc : c < h.scopes.size) (a : Nat) :
    (h.rebind c f).lookupLocal a y =
      if a = c then (f (h.scope c).bindings).find? y else h.lookupLocal a y := by
  rw [lookupLocal, scope_rebind]
  by_cases ha : a = c
  · subst ha
    rw [if_pos ⟨rfl, hc⟩, if_pos rfl]
  · rw [if_neg fun h => ha h.1.symm, if_neg ha]
    rfl

end

theorem lookupLocal_bind (hc : c < h.scopes.size) (a : Nat) :
    (h.bind c x i).lookupLocal a y = if a = c ∧ y = x then some i else h.lookupLocal a y := by
  have heq : h.bind c x i = h.rebind c (·.insert x i) := rfl
  rw [heq, lookupLocal_rebind _ hc, Table.find?_insert]
  by_cases ha : a = c
  · subst ha
    simp [lookupLocal]
  · simp [ha]

theorem lookupLocal_clear (hc : c < h.scopes.size) (a : Nat) :
    (h.clear c).lookupLocal a y = if a = c then none else h.lookupLocal a y :=
  lookupLocal_rebind (fun _ => .empty) hc a

/-- What is bound in a scope, is bound in one that has been made. -/
theorem lt_of_lookupLocal (hx : h.lookupLocal c x = some i) : c < h.scopes.size := by
  apply Nat.lt_of_not_le
  intro hc
  rw [lookupLocal, scope, getD_of_size_le hc] at hx
  cases hx

/-! ## New scopes -/

/-- The next scope to be made binds nothing yet. -/
theorem scope_size (h : Heap) : h.scope h.scopes.size = default := getD_of_size_le (Nat.le_refl _)

theorem scope_newScope (a : Nat) :
    (h.newScope parent).2.scope a =
      if a = h.scopes.size then ⟨.empty, parent :: (h.scope parent).ancestors⟩ else h.scope a := by
  show (h.scopes.push _).getD a default = _
  rcases Nat.lt_trichotomy a h.scopes.size with ha | rfl | ha
  · rw [if_neg (Nat.ne_of_lt ha), getD_push_lt _ _ ha]
    rfl
  · rw [if_pos rfl, getD_push_size]
  · have hpush : (h.scopes.push ⟨.empty, parent :: (h.scope parent).ancestors⟩).size ≤ a := by
      rw [Array.size_push]
      exact ha
    rw [if_neg (Nat.ne_of_gt ha), getD_of_size_le hpush, Heap.scope, getD_of_size_le (Nat.le_of_lt ha)]

/-- Making a scope binds nothing. -/
theorem lookupLocal_pushScope {around : List Nat} (a : Nat) :
    { h with scopes := h.scopes.push ⟨.empty, around⟩ }.lookupLocal a y = h.lookupLocal a y := by
  show ((h.scopes.push ⟨.empty, around⟩).getD a default).bindings.find? y = _
  rcases Nat.lt_trichotomy a h.scopes.size with ha | rfl | ha
  · rw [getD_push_lt _ _ ha]
    rfl
  · rw [getD_push_size, lookupLocal, scope_size]
    rfl
  · have hpush : (h.scopes.push ⟨.empty, around⟩).size ≤ a := by
      rw [Array.size_push]
      exact ha
    rw [getD_of_size_le hpush, lookupLocal, scope, getD_of_size_le (Nat.le_of_lt ha)]

theorem size_scopes_newScope : (h.newScope parent).2.scopes.size = h.scopes.size + 1 := Array.size_push _

theorem lookupLocal_newScope (a : Nat) : (h.newScope parent).2.lookupLocal a y = h.lookupLocal a y :=
  lookupLocal_pushScope a

/-! ## Declaring -/

theorem declare_eq (h : Heap) (c : Nat) (x : String) (ty : TypeKind) (v : Value) :
    h.declare c x ty v = (h.newSlot ⟨ty, v, true⟩).2.bind c x h.slots.size := rfl

theorem scope_declare (a : Nat) :
    (h.declare c x ty v).scope a =
      if c = a ∧ a < h.scopes.size then
        { h.scope a with bindings := (h.scope a).bindings.insert x h.slots.size }
      else h.scope a :=
  getD_modify ..

theorem size_scopes_declare : (h.declare c x ty v).scopes.size = h.scopes.size := Array.size_modify

theorem size_slots_declare : (h.declare c x ty v).slots.size = h.slots.size + 1 := Array.size_push _

theorem lookupLocal_declare (hc : c < h.scopes.size) (a : Nat) :
    (h.declare c x ty v).lookupLocal a y =
      if a = c ∧ y = x then some h.slots.size else h.lookupLocal a y :=
  lookupLocal_bind (h := (h.newSlot ⟨ty, v, true⟩).2) hc a

theorem slot_declare_size : (h.declare c x ty v).slot h.slots.size = ⟨ty, v, true⟩ := getD_push_size _ _

theorem slot_declare_of_lt (hi : i < h.slots.size) : (h.declare c x ty v).slot i = h.slot i :=
  getD_push_lt _ _ hi

/-! ## Looking up -/

/-- What is bound in a scope itself is found there first. -/
theorem lookup_of_local (hx : h.lookupLocal c x = some i) : h.lookup c x = some i := by
  rw [lookup, chain, List.findSome?_cons, hx]

/-- What is not bound in a scope itself is looked for in the nearest scope around it. -/
theorem lookup_of_parent {around : List Nat} (hscope : (h.scope c).ancestors = parent :: around)
    (hnone : h.lookupLocal c x = none) (hx : h.lookupLocal parent x = some i) : h.lookup c x = some i := by
  rw [lookup, chain, hscope, List.findSome?_cons, hnone, List.findSome?_cons, hx]

/-- The nearest scope that binds a name, on the way from a scope outwards. -/
def nearest? (h : Heap) (c : Nat) (x : String) : Option Nat :=
  (h.chain c).find? fun a => (h.lookupLocal a x).isSome

theorem lookup_eq_nearest (h : Heap) (c : Nat) (x : String) :
    h.lookup c x = (h.nearest? c x).bind fun a => h.lookupLocal a x :=
  findSome?_eq_find?_bind ..

/-- The nearest scope binds the name, and none before it does. -/
theorem nearest?_eq_some (h : Heap) (c : Nat) (x : String) (a : Nat) :
    h.nearest? c x = some a ↔ (h.lookupLocal a x).isSome = true ∧
      ∃ before around, h.chain c = before ++ a :: around ∧ ∀ b ∈ before, h.lookupLocal b x = none := by
  rw [nearest?, List.find?_eq_some_iff_append]
  simp

/-! ## Unbinding -/

/-- A name is unbound where it is found. -/
theorem unbind_eq (h : Heap) (c : Nat) (x : String) :
    h.unbind c x =
      match h.nearest? c x with
      | some a => (h.lookupLocal a x, h.rebind a (·.erase x))
      | none => (none, h) := rfl

theorem unbind_fst (h : Heap) (c : Nat) (x : String) : (h.unbind c x).1 = h.lookup c x := by
  rw [unbind_eq, lookup_eq_nearest]
  cases h.nearest? c x <;> rfl

theorem lookupLocal_unbind (h : Heap) (c : Nat) (x : String) (b : Nat) (y : String) :
    (h.unbind c x).2.lookupLocal b y =
      if h.nearest? c x = some b ∧ y = x then none else h.lookupLocal b y := by
  rw [unbind_eq]
  cases hnearest : h.nearest? c x with
  | none => simp
  | some a =>
    obtain ⟨i, hi⟩ := Option.isSome_iff_exists.mp ((h.nearest?_eq_some c x a).mp hnearest).1
    dsimp only
    rw [lookupLocal_rebind _ (lt_of_lookupLocal hi), Table.find?_erase]
    by_cases hb : b = a
    · subst hb
      simp [lookupLocal]
    · simp [hb, Ne.symm hb]

theorem chain_unbind (h : Heap) (c : Nat) (x : String) (a : Nat) : (h.unbind c x).2.chain a = h.chain a := by
  rw [unbind_eq]
  cases h.nearest? c x with
  | none => rfl
  | some _ => exact chain_rebind _ a

theorem slots_unbind (h : Heap) (c : Nat) (x : String) : (h.unbind c x).2.slots = h.slots := by
  rw [unbind_eq]
  cases h.nearest? c x <;> rfl

/-! ## Writing -/

theorem slot_setValue (hi : i < h.slots.size) (j : Nat) :
    (h.setValue i v).slot j = if j = i then { h.slot i with value := v } else h.slot j := by
  show (h.slots.modify i _).getD j default = _
  rw [getD_modify]
  by_cases hj : j = i
  · subst hj
    rw [if_pos ⟨rfl, hi⟩, if_pos rfl]
    rfl
  · rw [if_neg fun h => hj h.1.symm, if_neg hj]
    rfl

theorem lt_of_slot_ne (hne : h.slot i ≠ default) : i < h.slots.size := by
  apply Nat.lt_of_not_le
  intro hge
  exact hne (getD_of_size_le hge)

theorem slot_setValue_self {w : Value} (hslot : h.slot i = ⟨ty, v, true⟩) (hlt : i < h.slots.size) :
    (h.setValue i w).slot i = ⟨ty, w, true⟩ := by
  rw [slot_setValue hlt, if_pos rfl, hslot]

/-- A slot that may be written to has been made. -/
theorem lt_of_isMutable (hi : (h.slot i).isMutable = true) : i < h.slots.size := by
  apply lt_of_slot_ne
  intro hdefault
  rw [hdefault] at hi
  cases hi

end Heap
end TreeScript
