import Mathlib.Data.List.Nodup
import Mathlib.Logic.Function.Basic
import TreeScript.Proofs.Scopes

/-
# The scopes of a heap are a tree over shared slots

A scope of a heap remembers all the scopes around it, and what it binds is a number of a slot.  For those who
ask, this is a tree (`ScopeTree`): a scope has a parent or is a root, names are looked for on the way along the
parents, and several names in several scopes may lead to one slot.  A parent is made before its children, so
that every way ends at a root.

Whatever is done to the scopes in whatever order, the heap and the tree remain the same thing
(`Heap.Grown.mirrors`).  What a single operation changes, and what it leaves, is then said of the heap itself
(`Heap.FramesScopes`).
-/

namespace TreeScript

/-! ## The tree -/

/-- A tree of scopes over shared slots, or several of them.  A scope has a parent that was made before it, or is
a root; it binds names to slots. -/
structure ScopeTree where
  count : Nat
  parent? : (c : Nat) → Option (Fin c)
  bound : Nat → String → Option Nat
  slots : List Slot

namespace ScopeTree

/-- No scope and no slot. -/
def empty : ScopeTree := ⟨0, fun _ => none, fun _ _ => none, []⟩

/-- The way from a scope to its root, from parent to parent. -/
def path (t : ScopeTree) (c : Nat) : List Nat :=
  c :: match t.parent? c with
    | some p => t.path p
    | none => []
termination_by c
decreasing_by exact p.isLt

/-- The nearest scope on the way to the root that binds a name. -/
def nearest? (t : ScopeTree) (c : Nat) (x : String) : Option Nat :=
  (t.path c).find? fun a => (t.bound a x).isSome

/-- The slot that a name leads to: it is bound to it in the nearest scope. -/
def lookup (t : ScopeTree) (c : Nat) (x : String) : Option Nat :=
  (t.nearest? c x).bind fun a => t.bound a x

/-- A new scope, which binds nothing. -/
def newScope (t : ScopeTree) (parent? : Option (Fin t.count)) : ScopeTree :=
  { t with count := t.count + 1, parent? := Function.update t.parent? t.count parent? }

/-- A new slot, which nothing leads to. -/
def newSlot (t : ScopeTree) (s : Slot) : ScopeTree := { t with slots := t.slots ++ [s] }

/-- Bind a name in a scope, or unbind it there. -/
def set (t : ScopeTree) (c : Nat) (x : String) (i? : Option Nat) : ScopeTree :=
  { t with bound := fun b y => if b = c ∧ y = x then i? else t.bound b y }

/-- Unbind all names of a scope. -/
def clear (t : ScopeTree) (c : Nat) : ScopeTree :=
  { t with bound := fun b y => if b = c then none else t.bound b y }

/-- Write to a slot that may be written to. -/
def assign? (t : ScopeTree) (i : Nat) (v : Value) : Option ScopeTree :=
  match t.slots[i]? with
  | some s => if s.isMutable then some { t with slots := t.slots.set i { s with value := v } } else none
  | none => none

end ScopeTree

/-! ## Histories -/

/-- What is done to scopes and slots. -/
inductive ScopeChange where
  /-- Make a scope with none around it. -/
  | root
  | child (parent : Nat)
  /-- Make a slot that nothing is bound to yet. -/
  | slot (s : Slot)
  /-- Bind a name to a slot that there is, be it bound elsewhere or not. -/
  | define (c : Nat) (x : String) (i : Nat)
  | declare (c : Nat) (x : String) (ty : TypeKind) (v : Value)
  | remove (c : Nat) (x : String)
  | clear (c : Nat)
  | assign (i : Nat) (v : Value)

namespace ScopeChange

/-- The heap afterwards; what refuses leaves it as it is. -/
def onHeap (h : Heap) : ScopeChange → Heap
  | root => h.newRoot.2
  | child parent => (h.newScope parent).2
  | slot s => (h.newSlot s).2
  | define c x i => h.bind c x i
  | declare c x ty v => h.declare c x ty v
  | remove c x => (h.unbind c x).2
  | clear c => h.clear c
  | assign i v => (h.assign? i v).getD h

/-- The tree afterwards. -/
def onTree (t : ScopeTree) : ScopeChange → ScopeTree
  | root => t.newScope none
  | child parent => t.newScope (if hp : parent < t.count then some ⟨parent, hp⟩ else none)
  | slot s => t.newSlot s
  | define c x i => t.set c x (some i)
  | declare c x ty v => (t.newSlot ⟨ty, v, true⟩).set c x (some t.slots.length)
  | remove c x =>
    match t.nearest? c x with
    | some a => t.set a x none
    | none => t
  | clear c => t.clear c
  | assign i v => (t.assign? i v).getD t

/-- The scopes and the slots that are named have been made. -/
def Fits (t : ScopeTree) : ScopeChange → Prop
  | root | slot _ => True
  | child c | declare c _ _ _ | remove c _ | clear c => c < t.count
  | define c _ i => c < t.count ∧ i < t.slots.length
  | assign i _ => i < t.slots.length

end ScopeChange

/-- A heap and a tree that have grown from nothing by the same history. -/
inductive Heap.Grown : Heap → ScopeTree → Prop
  | empty : Grown .empty .empty
  | step {h : Heap} {t : ScopeTree} (x : ScopeChange) : Grown h t → x.Fits t → Grown (x.onHeap h) (x.onTree t)

/-! ## The heap and the tree -/

/-- A heap is a tree of scopes: it has the scopes and the slots of the tree, the same ways to the roots, and the
same bindings. -/
structure Heap.Mirrors (h : Heap) (t : ScopeTree) : Prop where
  count : h.scopes.size = t.count
  slots : h.slots.toList = t.slots
  chain : ∀ c < t.count, h.chain c = t.path c
  bound : ∀ c x, h.lookupLocal c x = t.bound c x

namespace ScopeTree

variable {t : ScopeTree} {a c : Nat} {x : String} {i : Nat} {v : Value}

theorem path_eq (t : ScopeTree) (c : Nat) : t.path c = c :: (t.parent? c).elim [] fun p => t.path p := by
  rw [path]
  cases t.parent? c <;> rfl

/-- The scopes on the way from a scope are the scope itself and earlier ones. -/
theorem le_of_mem_path (ha : a ∈ t.path c) : a ≤ c := by
  -- a parent is an earlier scope
  induction c using Nat.strongRecOn with
  | ind c ih =>
    rw [path_eq, List.mem_cons] at ha
    rcases ha with rfl | ha
    · exact Nat.le_refl _
    · cases hp : t.parent? c with
      | none =>
        rw [hp] at ha
        cases ha
      | some p =>
        rw [hp] at ha
        exact Nat.le_of_lt (Nat.lt_of_le_of_lt (ih p p.isLt ha) p.isLt)

/-- On the way from a scope no scope comes twice. -/
theorem nodup_path (t : ScopeTree) (c : Nat) : (t.path c).Nodup := by
  induction c using Nat.strongRecOn with
  | ind c ih =>
    rw [path_eq]
    cases t.parent? c with
    | none => exact List.nodup_singleton c
    | some p =>
      refine List.nodup_cons.mpr ⟨fun hc => ?_, ih p p.isLt⟩
      have hle : c ≤ p := le_of_mem_path hc
      have hlt : (p : Nat) < c := p.isLt
      omega

/-- The way depends on the parents alone. -/
theorem path_congr (t t' : ScopeTree) (h : ∀ b ≤ c, t'.parent? b = t.parent? b) : t'.path c = t.path c := by
  induction c using Nat.strongRecOn with
  | ind c ih =>
    rw [path_eq, path_eq, h c (Nat.le_refl _)]
    cases t.parent? c with
    | none => rfl
    | some p =>
      have hrest : t'.path p = t.path p :=
        ih p p.isLt fun b hb => h b (Nat.le_of_lt (Nat.lt_of_le_of_lt hb p.isLt))
      exact congrArg (c :: ·) hrest

theorem path_of_parents (t : ScopeTree) {t' : ScopeTree} (h : t.parent? = t'.parent?) : t.path c = t'.path c :=
  t'.path_congr t fun b _ => congrFun h b

theorem path_newScope (parent? : Option (Fin t.count)) (hc : c < t.count) :
    (t.newScope parent?).path c = t.path c := by
  apply path_congr
  intro b hb
  have hne : b ≠ t.count := by omega
  exact Function.update_of_ne hne ..

/-- From a new scope the way is that of its parent. -/
theorem path_newScope_self (t : ScopeTree) (parent? : Option (Fin t.count)) :
    (t.newScope parent?).path t.count = t.count :: parent?.elim [] fun p => t.path p := by
  have hparent : (t.newScope parent?).parent? t.count = parent? := Function.update_self ..
  rw [path_eq, hparent]
  cases parent? with
  | none => rfl
  | some p => exact congrArg (t.count :: ·) (path_newScope (some p) p.isLt)

/-- A write changes one slot, or is refused. -/
theorem assign?_cases (t : ScopeTree) (i : Nat) (v : Value) :
    t.assign? i v = none ∨ ∃ s, t.assign? i v = some { t with slots := t.slots.set i s } := by
  unfold assign?
  split
  · split
    · exact .inr ⟨_, rfl⟩
    · exact .inl rfl
  · exact .inl rfl

end ScopeTree

namespace Heap

variable {h : Heap} {t : ScopeTree} {a b c i : Nat} {x : String} {v : Value}

namespace Mirrors

/-! ### What is asked -/

theorem nearest? (m : h.Mirrors t) (hc : c < t.count) (x : String) : h.nearest? c x = t.nearest? c x := by
  unfold Heap.nearest? ScopeTree.nearest?
  simp only [m.chain c hc, m.bound]

theorem lookup (m : h.Mirrors t) (hc : c < t.count) (x : String) : h.lookup c x = t.lookup c x := by
  rw [lookup_eq_nearest, m.nearest? hc, ScopeTree.lookup]
  simp only [m.bound]

theorem slot? (m : h.Mirrors t) (i : Nat) : h.slots[i]? = t.slots[i]? := by
  rw [← m.slots, Array.getElem?_toList]

theorem size_slots (m : h.Mirrors t) : h.slots.size = t.slots.length := by
  rw [← m.slots, Array.length_toList]

theorem slot_eq (m : h.Mirrors t) {s : Slot} (hs : t.slots[i]? = some s) : h.slot i = s := by
  rw [slot, Array.getD_eq_getD_getElem?, m.slot?, hs]
  rfl

/-! ### What is done -/

/-- A scope is made, which is found inside its parent. -/
theorem pushScope (m : h.Mirrors t) (parent? : Option (Fin t.count)) {around : List Nat}
    (haround : around = parent?.elim [] fun p => t.path p) :
    { h with scopes := h.scopes.push ⟨.empty, around⟩ }.Mirrors (t.newScope parent?) where
  count := (Array.size_push _).trans (congrArg (· + 1) m.count)
  slots := m.slots
  chain c hc := by
    show c :: ((h.scopes.push ⟨.empty, around⟩).getD c default).ancestors = _
    rcases Nat.lt_succ_iff_lt_or_eq.mp hc with hc | rfl
    · rw [ScopeTree.path_newScope _ hc, ← m.chain c hc, getD_push_lt _ _ (m.count ▸ hc)]
      rfl
    · have hlast : (h.scopes.push ⟨.empty, around⟩).getD t.count default = ⟨.empty, around⟩ := by
        rw [← m.count, getD_push_size]
      rw [t.path_newScope_self, hlast, haround]
  bound c x := by
    show ((h.scopes.push ⟨.empty, around⟩).getD c default).bindings.find? x = t.bound c x
    rw [← m.bound c x]
    exact lookupLocal_pushScope c

theorem newRoot (m : h.Mirrors t) : h.newRoot.2.Mirrors (t.newScope none) := m.pushScope none rfl

theorem newScope (m : h.Mirrors t) {p : Nat} (hp : p < t.count) :
    (h.newScope p).2.Mirrors (t.newScope (some ⟨p, hp⟩)) :=
  m.pushScope (some ⟨p, hp⟩) (m.chain p hp)

theorem newSlot (m : h.Mirrors t) (s : Slot) : (h.newSlot s).2.Mirrors (t.newSlot s) where
  count := m.count
  slots := by
    show (h.slots.push s).toList = t.slots ++ [s]
    rw [Array.toList_push, m.slots]
  chain c hc := by
    show h.chain c = _
    rw [m.chain c hc]
    exact t.path_of_parents rfl
  bound := m.bound

/-- A scope binds other names. -/
theorem rebind (m : h.Mirrors t) {f : Table String Nat → Table String Nat} {bound : Nat → String → Option Nat}
    (hbound : ∀ b x, (h.rebind c f).lookupLocal b x = bound b x) :
    (h.rebind c f).Mirrors { t with bound := bound } where
  count := (size_scopes_rebind f).trans m.count
  slots := m.slots
  chain b hb := by
    rw [chain_rebind, m.chain b hb]
    exact t.path_of_parents rfl
  bound := hbound

theorem bind (m : h.Mirrors t) (hc : c < t.count) (x : String) (i : Nat) :
    (h.bind c x i).Mirrors (t.set c x (some i)) :=
  m.rebind (f := (·.insert x i)) fun b y => by
    rw [← m.bound b y]
    exact lookupLocal_bind (m.count ▸ hc) b

theorem unbind (m : h.Mirrors t) (hc : c < t.count) (x : String) :
    (h.unbind c x).2.Mirrors ((ScopeChange.remove c x).onTree t) := by
  have hlocal := h.lookupLocal_unbind c x
  rw [unbind_eq] at hlocal ⊢
  rw [m.nearest? hc] at hlocal ⊢
  dsimp only [ScopeChange.onTree]
  cases hnearest : t.nearest? c x with
  | none => exact m
  | some a =>
    rw [hnearest] at hlocal
    refine m.rebind (f := (·.erase x)) (c := a) fun b y => ?_
    rw [← m.bound b y, hlocal b y]
    simp [eq_comm]

theorem clear (m : h.Mirrors t) (hc : c < t.count) : (h.clear c).Mirrors (t.clear c) :=
  m.rebind (f := fun _ => .empty) fun b y => by
    rw [← m.bound b y]
    exact lookupLocal_clear (m.count ▸ hc) b

/-- A write is refused on both sides, or on neither. -/
theorem assign? (m : h.Mirrors t) (hi : i < t.slots.length) (v : Value) :
    (h.assign? i v = none ∧ t.assign? i v = none) ∨
      ∃ h' t', h.assign? i v = some h' ∧ t.assign? i v = some t' ∧ h'.Mirrors t' := by
  obtain ⟨s, hs⟩ : ∃ s, t.slots[i]? = some s := ⟨t.slots[i], List.getElem?_eq_getElem hi⟩
  have hslot := m.slot_eq hs
  unfold Heap.assign? ScopeTree.assign?
  rw [hs, hslot]
  by_cases hmutable : s.isMutable = true
  · right
    refine ⟨h.setValue i v, _, if_pos hmutable, if_pos hmutable, m.count, ?_, fun c hc => ?_, m.bound⟩
    · show (h.slots.modify i fun s => { s with value := v }).toList = t.slots.set i { s with value := v }
      rw [Array.toList_modify, m.slots, List.modify_eq_set, hs]
      rfl
    · show h.chain c = _
      rw [m.chain c hc]
      exact t.path_of_parents rfl
  · left
    exact ⟨if_neg hmutable, if_neg hmutable⟩

/-- **The heap and the tree remain the same thing**, whatever is done to both. -/
theorem step (m : h.Mirrors t) {x : ScopeChange} (hx : x.Fits t) : (x.onHeap h).Mirrors (x.onTree t) := by
  cases x with
  | root => exact m.newRoot
  | child p =>
    have hp : p < t.count := hx
    simp only [ScopeChange.onHeap, ScopeChange.onTree, dif_pos hp]
    exact m.newScope hp
  | slot s => exact m.newSlot s
  | define c x i => exact m.bind hx.1 x i
  | declare c x ty v =>
    simp only [ScopeChange.onHeap, ScopeChange.onTree, declare_eq]
    rw [m.size_slots]
    exact (m.newSlot ⟨ty, v, true⟩).bind hx x t.slots.length
  | remove c x => exact m.unbind hx x
  | clear c => exact m.clear hx
  | assign i v =>
    simp only [ScopeChange.onHeap, ScopeChange.onTree]
    rcases m.assign? hx v with ⟨hh, ht⟩ | ⟨h', t', hh, ht, m'⟩
    · rw [hh, ht]
      exact m
    · rw [hh, ht]
      exact m'

end Mirrors

theorem Grown.mirrors (g : h.Grown t) : h.Mirrors t := by
  induction g with
  | empty => exact ⟨rfl, rfl, fun c hc => absurd hc (Nat.not_lt_zero c), fun _ _ => rfl⟩
  | step _ _ hx ih => exact ih.step hx

/-- What is bound has been made. -/
theorem Grown.lt_of_bound (g : h.Grown t) (hi : t.bound c x = some i) : i < t.slots.length := by
  induction g generalizing c x i with
  | empty => cases hi
  | @step h t change g hfits ih =>
    -- where one binding is replaced, only the slot that is bound there has to be looked at
    have hset : ∀ {a y j?}, (∀ j, j? = some j → j < t.slots.length) →
        (t.set a y j?).bound c x = some i → i < t.slots.length := by
      intro a y j? hj hbound
      by_cases hkey : c = a ∧ x = y
      · exact hj i ((if_pos hkey).symm.trans hbound)
      · exact ih ((if_neg hkey).symm.trans hbound)
    cases change with
    | root => exact ih hi
    | child p => exact ih hi
    | slot s =>
      have hlt := ih hi
      show i < (t.slots ++ [s]).length
      rw [List.length_append]
      omega
    | define a y j =>
      refine hset (fun k hk => ?_) hi
      cases hk
      exact hfits.2
    | declare a y ty v =>
      show i < (t.slots ++ [(⟨ty, v, true⟩ : Slot)]).length
      rw [List.length_append]
      by_cases hkey : c = a ∧ x = y
      · cases (if_pos hkey).symm.trans hi
        exact Nat.lt_succ_self _
      · exact Nat.lt_succ_of_lt (ih ((if_neg hkey).symm.trans hi))
    | remove a y =>
      simp only [ScopeChange.onTree] at hi ⊢
      cases hnearest : t.nearest? a y with
      | none =>
        rw [hnearest] at hi
        exact ih hi
      | some b =>
        rw [hnearest] at hi
        exact hset (fun k hk => by cases hk) hi
    | clear a =>
      by_cases ha : c = a
      · cases (if_pos ha).symm.trans hi
      · exact ih ((if_neg ha).symm.trans hi)
    | assign j v =>
      rcases t.assign?_cases j v with hrefused | ⟨s, hdone⟩
      · simp only [ScopeChange.onTree, hrefused] at hi ⊢
        exact ih hi
      · simp only [ScopeChange.onTree, hdone, Option.getD_some, List.length_set] at hi ⊢
        exact ih hi

/-! ## The tree refined -/

/-- A heap answers as the tree does, whatever is asked and whatever is done next. -/
structure RefinesTree (h : Heap) (t : ScopeTree) : Prop where
  chain : ∀ c < t.count, h.chain c = t.path c
  isRoot : ∀ c < t.count, h.isRoot c = (t.parent? c).isNone
  lookupLocal : ∀ c x, h.lookupLocal c x = t.bound c x
  lookup : ∀ c < t.count, ∀ x, h.lookup c x = t.lookup c x
  slot? : ∀ i : Nat, h.slots[i]? = t.slots[i]?
  /-- What is bound is a slot that there is. -/
  known : ∀ c x i, h.lookupLocal c x = some i → i < h.slots.size
  newRoot_gives : h.newRoot.1 = t.count
  newScope_gives : ∀ p, (h.newScope p).1 = t.count
  newSlot_gives : ∀ s, (h.newSlot s).1 = t.slots.length
  unbind_gives : ∀ c < t.count, ∀ x, (h.unbind c x).1 = t.lookup c x
  assign_done : ∀ i < t.slots.length, ∀ v, (h.assign? i v).isSome = (t.assign? i v).isSome
  next : ∀ x : ScopeChange, x.Fits t → (x.onHeap h).Grown (x.onTree t)

/-- What scopes and slots do, and what they leave as it was. -/
structure FramesScopes (h : Heap) : Prop where
  /-- A scope is a root, or its way goes on with that of an earlier one. -/
  way : ∀ c < h.scopes.size, h.isRoot c = true ∧ h.chain c = [c] ∨
    h.isRoot c = false ∧ ∃ p < c, h.chain c = c :: h.chain p
  /-- Every way ends at a root, and at no other one before. -/
  ends : ∀ c < h.scopes.size, ∃ inner root, h.chain c = inner ++ [root] ∧ h.isRoot root = true ∧
    ∀ a ∈ inner, h.isRoot a = false
  /-- Whatever is done, the scopes that there are keep their ways, and so their parents and roots. -/
  stays : ∀ (x : ScopeChange) (c : Nat), c < h.scopes.size →
    (x.onHeap h).chain c = h.chain c ∧ (x.onHeap h).isRoot c = h.isRoot c
  /-- A name is found in the nearest scope that binds it. -/
  lookup_iff : ∀ c x i, h.lookup c x = some i ↔ ∃ inner a outer, h.chain c = inner ++ a :: outer ∧
    (∀ b ∈ inner, h.lookupLocal b x = none) ∧ h.lookupLocal a x = some i
  /-- It is unbound there, and nowhere else; from then on it is found further out, if it is. -/
  unbind_nearest : ∀ c < h.scopes.size, ∀ x inner a outer i, h.chain c = inner ++ a :: outer →
    (∀ b ∈ inner, h.lookupLocal b x = none) → h.lookupLocal a x = some i →
    (h.unbind c x).1 = some i ∧
      (∀ b y, (h.unbind c x).2.lookupLocal b y = if b = a ∧ y = x then none else h.lookupLocal b y) ∧
      (h.unbind c x).2.lookup c x = outer.findSome? (h.lookupLocal · x) ∧
      (h.unbind c x).2.slots = h.slots
  unbind_none : ∀ c x, h.lookup c x = none → h.unbind c x = (none, h)
  /-- A name is bound in one scope, whichever slot it is bound to. -/
  bind_local : ∀ c < h.scopes.size, ∀ x i,
    (∀ b y, (h.bind c x i).lookupLocal b y = if b = c ∧ y = x then some i else h.lookupLocal b y) ∧
      (h.bind c x i).slots = h.slots
  declare_local : ∀ c < h.scopes.size, ∀ x ty v,
    (∀ b y, (h.declare c x ty v).lookupLocal b y =
      if b = c ∧ y = x then some h.slots.size else h.lookupLocal b y) ∧
      (h.declare c x ty v).slots = h.slots.push ⟨ty, v, true⟩
  clear_local : ∀ c < h.scopes.size,
    (∀ b y, (h.clear c).lookupLocal b y = if b = c then none else h.lookupLocal b y) ∧
      (h.clear c).slots = h.slots
  /-- What is written to a slot is read wherever a name leads to it, and nowhere else. -/
  assign_seen : ∀ i v h', h.assign? i v = some h' → h'.scopes = h.scopes ∧
    (∀ j, h'.slot j = if j = i then { h.slot i with value := v } else h.slot j) ∧
    ∀ c x, h'.lookup c x = h.lookup c x ∧ h'.read c x = if h.lookup c x = some i then v else h.read c x
  /-- An immutable slot refuses, and nothing changes. -/
  assign_refused : ∀ i v, (h.slot i).isMutable = false →
    h.assign? i v = none ∧ (ScopeChange.assign i v).onHeap h = h

theorem isRoot_eq (h : Heap) (c : Nat) : h.isRoot c = (h.chain c).tail.isEmpty := rfl

namespace Mirrors

theorem isRoot (m : h.Mirrors t) (hc : c < t.count) : h.isRoot c = (t.parent? c).isNone := by
  rw [isRoot_eq, m.chain c hc, ScopeTree.path_eq]
  cases t.parent? c with
  | none => rfl
  | some p =>
    show (t.path p).isEmpty = false
    rw [ScopeTree.path_eq]
    rfl

theorem way (m : h.Mirrors t) (hc : c < t.count) : h.isRoot c = true ∧ h.chain c = [c] ∨
    h.isRoot c = false ∧ ∃ p < c, h.chain c = c :: h.chain p := by
  rw [m.isRoot hc, m.chain c hc, ScopeTree.path_eq]
  cases t.parent? c with
  | none => exact .inl ⟨rfl, rfl⟩
  | some p =>
    refine .inr ⟨rfl, p, p.isLt, ?_⟩
    rw [m.chain p (Nat.lt_trans p.isLt hc)]
    rfl

theorem ends (m : h.Mirrors t) (hc : c < t.count) : ∃ inner root, h.chain c = inner ++ [root] ∧
    h.isRoot root = true ∧ ∀ a ∈ inner, h.isRoot a = false := by
  induction c using Nat.strongRecOn with
  | ind c ih =>
    rcases m.way hc with ⟨hroot, hchain⟩ | ⟨hinner, p, hp, hchain⟩
    · exact ⟨[], c, hchain, hroot, by simp⟩
    · obtain ⟨inner, root, hrest, hroot, hall⟩ := ih p hp (Nat.lt_trans hp hc)
      refine ⟨c :: inner, root, ?_, hroot, ?_⟩
      · rw [hchain, hrest]
        rfl
      · simpa using ⟨hinner, hall⟩

end Mirrors

/-- Nothing that is done changes the way from a scope. -/
theorem chain_onHeap (x : ScopeChange) (hc : c < h.scopes.size) : (x.onHeap h).chain c = h.chain c := by
  have hpush : ∀ s : Scope, { h with scopes := h.scopes.push s }.chain c = h.chain c := by
    intro s
    show c :: ((h.scopes.push s).getD c default).ancestors = _
    rw [getD_push_lt _ _ hc]
    rfl
  cases x with
  | root => exact hpush _
  | child p => exact hpush _
  | slot s => rfl
  | define b x i => exact chain_rebind (·.insert x i) c
  | declare b x ty v => exact chain_rebind (h := (h.newSlot ⟨ty, v, true⟩).2) (·.insert x h.slots.size) c
  | remove b x => exact chain_unbind h b x c
  | clear b => exact chain_rebind (fun _ => .empty) c
  | assign i v =>
    simp only [ScopeChange.onHeap, Heap.assign?]
    split <;> rfl

theorem lookup_eq_some (h : Heap) (c : Nat) (x : String) (i : Nat) :
    h.lookup c x = some i ↔ ∃ inner a outer, h.chain c = inner ++ a :: outer ∧
      (∀ b ∈ inner, h.lookupLocal b x = none) ∧ h.lookupLocal a x = some i := by
  unfold Heap.lookup
  rw [List.findSome?_eq_some_iff]
  constructor
  · rintro ⟨inner, a, outer, hchain, ha, hinner⟩
    exact ⟨inner, a, outer, hchain, hinner, ha⟩
  · rintro ⟨inner, a, outer, hchain, hinner, ha⟩
    exact ⟨inner, a, outer, hchain, ha, hinner⟩

/-- After a name has been unbound, it is found further out. -/
theorem Mirrors.unbind_nearest (m : h.Mirrors t) (hc : c < t.count) {inner outer : List Nat}
    (hchain : h.chain c = inner ++ a :: outer) (hinner : ∀ b ∈ inner, h.lookupLocal b x = none)
    (ha : h.lookupLocal a x = some i) :
    (h.unbind c x).1 = some i ∧
      (∀ b y, (h.unbind c x).2.lookupLocal b y = if b = a ∧ y = x then none else h.lookupLocal b y) ∧
      (h.unbind c x).2.lookup c x = outer.findSome? (h.lookupLocal · x) := by
  have hnearest : h.nearest? c x = some a :=
    (h.nearest?_eq_some c x a).mpr ⟨by simp [ha], inner, outer, hchain, hinner⟩
  have hlocal : ∀ b y, (h.unbind c x).2.lookupLocal b y =
      if b = a ∧ y = x then none else h.lookupLocal b y := by
    intro b y
    rw [h.lookupLocal_unbind c x b y, hnearest]
    simp [eq_comm]
  refine ⟨?_, hlocal, ?_⟩
  · rw [unbind_fst, h.lookup_eq_some]
    exact ⟨inner, a, outer, hchain, hinner, ha⟩
  · -- no scope comes twice, so that further out nothing has changed
    have hnodup : (inner ++ a :: outer).Nodup := by
      rw [← hchain, m.chain c hc]
      exact t.nodup_path c
    have hfresh : a ∉ outer := (List.nodup_cons.mp (List.nodup_append.mp hnodup).2.1).1
    have hnone : (inner ++ [a]).findSome? ((h.unbind c x).2.lookupLocal · x) = none := by
      apply List.findSome?_eq_none_iff.mpr
      intro b hb
      rw [hlocal]
      rcases List.mem_append.mp hb with hb | hb
      · rw [hinner b hb]
        simp
      · simp [List.mem_singleton.mp hb]
    have hsplit : inner ++ a :: outer = (inner ++ [a]) ++ outer := by simp
    rw [Heap.lookup, chain_unbind, hchain, hsplit, List.findSome?_append, hnone, Option.none_or]
    apply findSome?_congr
    intro b hb
    have hne : b ≠ a := fun heq => hfresh (heq ▸ hb)
    rw [hlocal, if_neg fun heq => hne heq.1]

/-- A write is seen through every name that leads to the slot, and through no other. -/
theorem assign?_seen {h' : Heap} (hdone : h.assign? i v = some h') : h'.scopes = h.scopes ∧
    (∀ j, h'.slot j = if j = i then { h.slot i with value := v } else h.slot j) ∧
    ∀ c x, h'.lookup c x = h.lookup c x ∧ h'.read c x = if h.lookup c x = some i then v else h.read c x := by
  unfold Heap.assign? at hdone
  split at hdone
  · rename_i hmutable
    cases hdone
    have hslot : ∀ j, (h.setValue i v).slot j = if j = i then { h.slot i with value := v } else h.slot j :=
      slot_setValue (lt_of_isMutable hmutable)
    refine ⟨rfl, hslot, fun c x => ⟨rfl, ?_⟩⟩
    have hlookup : (h.setValue i v).lookup c x = h.lookup c x := rfl
    rw [read, hlookup, read]
    cases h.lookup c x with
    | none => simp
    | some j =>
      show ((h.setValue i v).slot j).value = _
      rw [hslot]
      by_cases hj : j = i
      · simp [hj]
      · simp [hj]
        rfl
  · cases hdone

/-- **The scopes of a heap refine a tree over shared slots.**  After every history of making scopes and slots,
of binding, unbinding, clearing and writing, the heap answers as the tree that has the same history behind it.
A name is found, and unbound, in the nearest scope that binds it, and then it is found further out; a name is
bound in one scope alone; what is written to a slot is seen through every name that leads to the slot, and
through nothing else, unless the slot is immutable; and no way from a scope to its root ever changes. -/
theorem scopes_refine_tree (g : h.Grown t) : h.RefinesTree t ∧ h.FramesScopes := by
  have m := g.mirrors
  constructor
  -- the heap answers as the tree does
  · refine ⟨m.chain, fun c hc => m.isRoot hc, m.bound, fun c hc x => m.lookup hc x, m.slot?, ?_, m.count,
      fun _ => m.count, fun _ => m.size_slots, fun c hc x => ?_, fun i hi v => ?_, fun x hx => .step x g hx⟩
    · intro c x i hi
      rw [m.size_slots]
      exact g.lt_of_bound ((m.bound c x).symm.trans hi)
    · rw [unbind_fst]
      exact m.lookup hc x
    · rcases m.assign? hi v with ⟨hh, ht⟩ | ⟨h', t', hh, ht, -⟩ <;> rw [hh, ht] <;> rfl
  -- what an operation finds, and what it leaves as it is
  · refine ⟨fun c hc => m.way (m.count ▸ hc), fun c hc => m.ends (m.count ▸ hc), fun x c hc => ?_,
      h.lookup_eq_some, fun c hc x inner a outer i hchain hinner ha => ?_, fun c x hnone => ?_,
      fun c hc x i => ⟨fun b y => lookupLocal_bind hc b, rfl⟩, fun c hc x ty v => ⟨fun b y => lookupLocal_declare hc b, rfl⟩,
      fun c hc => ⟨fun b y => lookupLocal_clear hc b, rfl⟩, fun i v h' hdone => assign?_seen hdone,
      fun i v himmutable => ?_⟩
    · have hchain := h.chain_onHeap x hc
      exact ⟨hchain, by rw [isRoot_eq, hchain, isRoot_eq]⟩
    · obtain ⟨hgives, hlocal, houter⟩ := m.unbind_nearest (m.count ▸ hc) hchain hinner ha
      exact ⟨hgives, hlocal, houter, h.slots_unbind c x⟩
    · have hnearest : h.nearest? c x = none := by
        rw [Heap.lookup, List.findSome?_eq_none_iff] at hnone
        apply List.find?_eq_none.mpr
        intro a ha
        simp [hnone a ha]
      rw [unbind_eq, hnearest]
    · have hrefused : h.assign? i v = none := by simp [Heap.assign?, himmutable]
      exact ⟨hrefused, by simp [ScopeChange.onHeap, hrefused]⟩

/-- A variable in a scope, another one of its name in a scope inside, and a second name there for the outer one. -/
def shadowing : List ScopeChange :=
  [.root, .child 0, .declare 0 "x" .int (.int 1), .declare 1 "x" .int (.int 2), .define 1 "y" 0]

/-- Where a variable is shadowed and has a second name, unbinding the inner one shows the outer one, and writing
to it is seen through the second name. -/
theorem scopes_refine_tree_shadowing :
    ∃ h t, h.Grown t ∧ h.RefinesTree t ∧ h.FramesScopes ∧ h = shadowing.foldl ScopeChange.onHeap .empty ∧
      h.lookup 1 "x" = some 1 ∧ (h.unbind 1 "x").2.lookup 1 "x" = some 0 ∧
      ((h.assign? 0 (.int 3)).map fun h' => h'.read 1 "y") = some (.int 3) := by
  have g : (shadowing.foldl ScopeChange.onHeap Heap.empty).Grown
      (shadowing.foldl ScopeChange.onTree ScopeTree.empty) :=
    .step (.define 1 "y" 0) (.step (.declare 1 "x" .int (.int 2)) (.step (.declare 0 "x" .int (.int 1))
      (.step (.child 0) (.step .root .empty trivial) Nat.zero_lt_one) Nat.zero_lt_two) Nat.one_lt_two)
      ⟨Nat.one_lt_two, Nat.zero_lt_two⟩
  obtain ⟨hrefines, hframes⟩ := scopes_refine_tree g
  exact ⟨_, _, g, hrefines, hframes, rfl, by decide, by decide, by decide⟩

end Heap
end TreeScript
