import TreeScript.Proofs.Arity.Code
import TreeScript.Proofs.Isolation.Primitives
import TreeScript.Proofs.Storage

/-
# What is within reach

Code reaches storage through scopes and values: a scope leads to the slots that it binds and to the scopes around
it, and a container to its elements.  A `Reach` says which storage is within reach.  It is closed under going on
from there (`Heap.Confined`), and all storage that is still to be made is within reach.

Every operation on the heap that is given what is within reach leaves it closed, and all other storage as it was
before.  This is shown of the seven kinds of storage at once (`Cells`): a cell that is made is new, and one that is
replaced is within reach.
-/

namespace TreeScript

/-! ## Cells -/

/-- Cells of which some are within reach: those have a property, and the others are as they were before. -/
structure Cells {α : Type} [Inhabited α] (reach : Nat → Prop) (ok : α → Prop) (before : Nat → α)
    (cells : Array α) : Prop where
  fresh : ∀ i, cells.size ≤ i → reach i
  ok : ∀ i, reach i → ok (cells.getD i default)
  kept : ∀ i, ¬ reach i → cells.getD i default = before i

namespace Cells

variable {α : Type} [Inhabited α] {reach : Nat → Prop} {ok : α → Prop} {before : Nat → α} {cells : Array α}
variable {a : α} {c : Nat}

/-- Cells as they were before, of which those within reach have the property. -/
theorem of_forall (hbefore : ∀ i, cells.getD i default = before i) (hfresh : ∀ i, cells.size ≤ i → reach i)
    (hdefault : ok default) (h : ∀ i (hi : i < cells.size), reach i → ok cells[i]) :
    Cells reach ok before cells := by
  refine ⟨hfresh, fun i hi => ?_, fun i _ => hbefore i⟩
  rw [Array.getD]
  split
  · exact h i _ hi
  · exact hdefault

theorem push (h : Cells reach ok before cells) (ha : ok a) : Cells reach ok before (cells.push a) := by
  have hlt : ∀ i, ¬ reach i → i < cells.size := fun i hi => Nat.lt_of_not_le fun hle => hi (h.fresh i hle)
  refine ⟨fun i hi => h.fresh i ?_, fun i hi => ?_, fun i hi => ?_⟩
  · rw [Array.size_push] at hi
    exact Nat.le_of_succ_le hi
  · -- an old cell, the new one, or none: then it counts as a default one, as it did before
    rcases Nat.lt_trichotomy i cells.size with hlt | rfl | hgt
    · rw [getD_push_lt _ _ hlt]
      exact h.ok i hi
    · rw [getD_push_size]
      exact ha
    · have hsize : (cells.push a).size ≤ i := by
        rw [Array.size_push]
        exact hgt
      rw [getD_of_size_le hsize, ← getD_of_size_le (Nat.le_of_lt hgt)]
      exact h.ok i hi
  · rw [getD_push_lt _ _ (hlt i hi)]
    exact h.kept i hi

theorem modify (h : Cells reach ok before cells) (f : α → α) (hc : reach c)
    (hf : ok (cells.getD c default) → ok (f (cells.getD c default))) :
    Cells reach ok before (cells.modify c f) := by
  refine ⟨fun i hi => h.fresh i ?_, fun i hi => ?_, fun i hi => ?_⟩
  · rwa [Array.size_modify] at hi
  · rw [getD_modify]
    split
    · rename_i heq
      obtain ⟨rfl, _⟩ := heq
      exact hf (h.ok c hi)
    · exact h.ok i hi
  · rw [getD_modify, if_neg]
    · exact h.kept i hi
    · rintro ⟨rfl, _⟩
      exact hi hc

theorem set (h : Cells reach ok before cells) (hc : reach c) (ha : ok a) :
    Cells reach ok before (cells.setIfInBounds c a) := by
  rw [setIfInBounds_eq_modify]
  exact h.modify _ hc fun _ => ha

end Cells

/-! ## Reach -/

/-- Which storage is within reach, and the heap in which all other storage is as it stays. -/
structure Reach where
  before : Heap
  slot : Nat → Prop
  scope : Nat → Prop
  sequence : Nat → Prop
  map : Nat → Prop
  object : Nat → Prop
  callable : Nat → Prop
  coroutine : Nat → Prop

namespace Reach

variable (r : Reach)

/-- A value is no storage, or storage within reach. -/
def Has : Value → Prop
  | .list i | .array i => r.sequence i
  | .map i => r.map i
  | .object i => r.object i
  | .callable i => r.callable i
  | .ref i => r.slot i
  | .coroutine i => r.coroutine i
  | _ => True

/-- Native code that gives a value gives one within reach. -/
def HasRoutine (m : Routine) : Prop := ∀ v, m.body = .native (.constant v) → r.Has v

def HasClass (c : ClassDef) : Prop := c.methods.All fun _ m => r.HasRoutine m

def HasFunction : Function → Prop
  | .routine m => r.HasRoutine m
  | .core _ => True
  | .constructor c _ => r.HasClass c

def HasCallable : Callable → Prop
  | .function f => r.HasFunction f
  | .lambda _ _ c | .deferred _ c => r.scope c

def HasSource : EachSource → Prop
  | .items vs => ∀ v ∈ vs, r.Has v
  | .coroutine i => r.coroutine i

/-- A frame of the way back to a `yield` leads to what is within reach. -/
def HasFrame : ResumeFrame → Prop
  | .atYield | .inBlock _ => True
  | .inBranch _ c | .inWhile c | .inRange c _ _ => r.scope c
  | .inEach c source => r.scope c ∧ r.HasSource source
  | .inTry handler => ∀ c ∈ handler, r.scope c

structure HasScope (s : Scope) : Prop where
  bindings : s.bindings.All fun _ i => r.slot i
  ancestors : ∀ a ∈ s.ancestors, r.scope a

structure HasMap (m : OrderedMap) : Prop where
  keys : ∀ e ∈ m.entries, r.Has e.1
  values : ∀ e ∈ m.entries, r.Has e.2

structure HasInstance (o : Instance) : Prop where
  fields : r.scope o.fields
  cls : r.HasClass o.cls

structure HasCoroutine (c : Coroutine) : Prop where
  args : ∀ v ∈ c.args, r.Has v
  origin : r.scope c.origin
  scope : r.scope c.scope
  frames : ∀ f ∈ c.frames, r.HasFrame f

end Reach

/-- What is within reach leads only to what is within reach, and all else is as it was before. -/
structure Heap.Confined (h : Heap) (r : Reach) : Prop where
  slots : Cells r.slot (fun s => r.Has s.value) r.before.slot h.slots
  scopes : Cells r.scope r.HasScope r.before.scope h.scopes
  sequences : Cells r.sequence (fun items => ∀ v ∈ items, r.Has v) r.before.sequence h.sequences
  maps : Cells r.map r.HasMap r.before.mapAt h.maps
  objects : Cells r.object r.HasInstance r.before.object h.objects
  callables : Cells r.callable r.HasCallable r.before.callable h.callables
  coroutines : Cells r.coroutine r.HasCoroutine r.before.coroutine h.coroutines

/-! ## What is found -/

namespace Reach

variable {r : Reach} {v : Value} {m : OrderedMap}

theorem has_primitive (hv : v.Primitive) : r.Has v := by
  cases v <;> trivial

theorem HasMap.insert {k : Value} (h : r.HasMap m) (hk : r.Has k) (hv : r.Has v) : r.HasMap (m.insert k v) := by
  have hentries : ∀ e ∈ (m.insert k v).entries, (r.Has e.1 ∧ r.Has e.2) := by
    intro e he
    have hold : ∀ e ∈ m.entries, r.Has e.1 ∧ r.Has e.2 := fun e he => ⟨h.keys e he, h.values e he⟩
    unfold OrderedMap.insert OrderedMap.exchange at he
    split at he
    · rename_i i k' old hentry
      -- the key stays the one that was there, which is equal to `k` and need not be the same
      have hk' : r.Has k' := by
        unfold OrderedMap.entry? at hentry
        obtain ⟨j, _, hentry⟩ := Option.bind_eq_some_iff.mp hentry
        obtain ⟨e', he', hentry⟩ := Option.bind_eq_some_iff.mp hentry
        cases hentry
        exact h.keys _ (List.mem_of_getElem? he')
      rcases List.mem_or_eq_of_mem_set he with he | rfl
      · exact hold e he
      · exact ⟨hk', hv⟩
    · rcases List.mem_append.mp he with he | he
      · exact hold e he
      · cases List.mem_singleton.mp he
        exact ⟨hk, hv⟩
  exact ⟨fun e he => (hentries e he).1, fun e he => (hentries e he).2⟩

theorem hasMap_empty : r.HasMap .empty := ⟨nofun, nofun⟩

theorem HasMap.find? {k : Value} (h : r.HasMap m) (hv : m.find? k = some v) : r.Has v := by
  unfold OrderedMap.find? OrderedMap.entry? at hv
  obtain ⟨e, he, rfl⟩ := Option.map_eq_some_iff.mp hv
  obtain ⟨j, _, he⟩ := Option.bind_eq_some_iff.mp he
  obtain ⟨e', he', he⟩ := Option.bind_eq_some_iff.mp he
  cases he
  exact h.values _ (List.mem_of_getElem? he')

end Reach

namespace Heap.Confined

variable {r : Reach} {h : Heap} {c i place : Nat} {x : String} {v k : Value} {items : List Value}
variable (H : h.Confined r)
include H

theorem value (hi : r.slot i) : r.Has (h.slot i).value := H.slots.ok i hi

theorem lookupLocal (hc : r.scope c) (hi : h.lookupLocal c x = some i) : r.slot i :=
  (H.scopes.ok c hc).bindings.find? hi

theorem chain (hc : r.scope c) : ∀ a ∈ h.chain c, r.scope a := by
  intro a ha
  rcases List.mem_cons.mp ha with rfl | ha
  · exact hc
  · exact (H.scopes.ok c hc).ancestors a ha

theorem lookup (hc : r.scope c) (hi : h.lookup c x = some i) : r.slot i := by
  obtain ⟨a, ha, hi⟩ := List.exists_of_findSome?_eq_some hi
  exact H.lookupLocal (H.chain hc a ha) hi

theorem read (hc : r.scope c) : r.Has (h.read c x) := by
  unfold Heap.read
  cases hi : h.lookup c x with
  | none => trivial
  | some i => exact H.value (H.lookup hc hi)

theorem element (hi : r.sequence i) (hv : v ∈ h.sequence i) : r.Has v := H.sequences.ok i hi v hv

theorem getD (hi : r.sequence i) : r.Has ((h.sequence i).getD place .null) := by
  rw [Array.getD]
  split
  · exact H.element hi (Array.getElem_mem _)
  · trivial

theorem toList (hi : r.sequence i) : ∀ v ∈ (h.sequence i).toList, r.Has v :=
  fun _ hv => H.element hi (Array.mem_toList_iff.mp hv)

theorem keys (hi : r.map i) : ∀ v ∈ (h.mapAt i).keys, r.Has v := by
  intro v hv
  obtain ⟨e, he, rfl⟩ := List.mem_map.mp hv
  exact (H.maps.ok i hi).keys e he

theorem fields (hi : r.object i) : r.scope (h.object i).fields := (H.objects.ok i hi).fields

theorem cls (hi : r.object i) : r.HasClass (h.classOf i) := (H.objects.ok i hi).cls

/-! ## What is made and changed -/

theorem newSlot {s : Slot} (hs : r.Has s.value) : (h.newSlot s).2.Confined r :=
  { H with slots := H.slots.push hs }

theorem slot_size : r.slot h.slots.size := H.slots.fresh _ (Nat.le_refl _)

theorem scope_size : r.scope h.scopes.size := H.scopes.fresh _ (Nat.le_refl _)

theorem setValue (hi : r.slot i) (hv : r.Has v) : (h.setValue i v).Confined r :=
  { H with slots := H.slots.modify (fun s => { s with value := v }) hi fun _ => hv }

theorem newScope (hc : r.scope c) : (h.newScope c).2.Confined r :=
  { H with scopes := H.scopes.push ⟨Table.all_empty _, fun a ha => H.chain hc a ha⟩ }

theorem bind (hc : r.scope c) (hi : r.slot i) : (h.bind c x i).Confined r :=
  { H with scopes := H.scopes.modify (fun s => { s with bindings := s.bindings.insert x i }) hc fun hs =>
      ⟨hs.bindings.insert hi, hs.ancestors⟩ }

theorem declareSlot {s : Slot} (hc : r.scope c) (hs : r.Has s.value) : (h.declareSlot c x s).Confined r :=
  (H.newSlot hs).bind hc H.slot_size

theorem declare (hc : r.scope c) (ty : TypeKind) (hv : r.Has v) : (h.declare c x ty v).Confined r :=
  H.declareSlot hc hv

theorem clear (hc : r.scope c) : (h.clear c).Confined r :=
  { H with scopes := H.scopes.modify (fun s => { s with bindings := .empty }) hc fun hs =>
      ⟨Table.all_empty _, hs.ancestors⟩ }

theorem unbind (hc : r.scope c) : (h.unbind c x).2.Confined r := by
  unfold Heap.unbind
  split
  · rename_i a ha
    have hra : r.scope a := H.chain hc a (List.mem_of_find?_eq_some ha)
    have hscopes := H.scopes.modify (fun s => { s with bindings := s.bindings.erase x }) hra fun hs =>
      ⟨fun e he => hs.bindings e (List.mem_filter.mp he).1, hs.ancestors⟩
    exact { H with scopes := hscopes }
  · exact H

theorem newSequence {items : Array Value} (hitems : ∀ v ∈ items, r.Has v) :
    (h.newSequence items).2.Confined r :=
  { H with sequences := H.sequences.push hitems }

theorem newList (hitems : ∀ v ∈ items, r.Has v) :
    r.Has (h.newList items).1 ∧ (h.newList items).2.Confined r :=
  ⟨H.sequences.fresh _ (Nat.le_refl _), H.newSequence fun v hv => hitems v (List.mem_toArray.mp hv)⟩

theorem setElement (hi : r.sequence i) (hv : r.Has v) : (h.setElement i place v).Confined r := by
  refine { H with sequences := H.sequences.modify (·.setIfInBounds place v) hi fun hs w hw => ?_ }
  rw [← Array.mem_toList_iff, Array.toList_setIfInBounds] at hw
  rcases List.mem_or_eq_of_mem_set hw with hw | rfl
  · exact hs w (Array.mem_toList_iff.mp hw)
  · exact hv

theorem newMap {m : OrderedMap} (hm : r.HasMap m) :
    r.Has (h.newMap m).1 ∧ (h.newMap m).2.Confined r :=
  ⟨H.maps.fresh _ (Nat.le_refl _), { H with maps := H.maps.push hm }⟩

theorem setEntry (hi : r.map i) (hk : r.Has k) (hv : r.Has v) : (h.setEntry i k v).Confined r :=
  { H with maps := H.maps.modify (·.insert k v) hi fun hm => hm.insert hk hv }

theorem newObject {cls : ClassDef} (hcls : r.HasClass cls) (hc : r.scope c) :
    r.object (h.newObject cls c).1 ∧ (h.newObject cls c).2.Confined r := by
  refine ⟨H.objects.fresh _ (Nat.le_refl _), ?_⟩
  exact { H.newScope hc with objects := H.objects.push ⟨H.scope_size, hcls⟩ }

theorem newCallable {callable : Callable} (hcallable : r.HasCallable callable) :
    r.Has (h.newCallable callable).1 ∧ (h.newCallable callable).2.Confined r :=
  ⟨H.callables.fresh _ (Nat.le_refl _), { H with callables := H.callables.push hcallable }⟩

theorem setCoroutine {co : Coroutine} (hi : r.coroutine i) (hco : r.HasCoroutine co) :
    (h.setCoroutine i co).Confined r :=
  { H with coroutines := H.coroutines.set hi hco }

theorem declareAll (hc : r.scope c) (params : List Param) {args : List Value} (hargs : ∀ v ∈ args, r.Has v) :
    (h.declareAll c params args).Confined r := by
  unfold Heap.declareAll
  have hpairs : ∀ p ∈ params.zip args, r.Has p.2 := fun p hp => hargs p.2 (List.of_mem_zip hp).2
  generalize params.zip args = pairs at hpairs
  induction pairs generalizing h with
  | nil => exact H
  | cons p pairs ih =>
    refine ih (H.declare hc p.1.type (hpairs p List.mem_cons_self)) fun q hq => ?_
    exact hpairs q (List.mem_cons_of_mem p hq)

theorem newCoroutine (name : String) (params : List Param) (body : Node) {args : List Value}
    (hargs : ∀ v ∈ args, r.Has v) (hc : r.scope c) :
    r.coroutine (h.newCoroutine name params body args c).1 ∧
      (h.newCoroutine name params body args c).2.Confined r := by
  have hscope := (H.newScope hc).declareAll H.scope_size params hargs
  refine ⟨hscope.coroutines.fresh _ (Nat.le_refl _), ?_⟩
  exact { hscope with coroutines := hscope.coroutines.push ⟨hargs, hc, H.scope_size, nofun⟩ }

theorem restart (hi : r.coroutine i) :
    r.coroutine (h.restart i).1 ∧ (h.restart i).2.Confined r := by
  have hco := H.coroutines.ok i hi
  exact H.newCoroutine _ _ _ hco.args hco.origin

/-! ## Conversions -/

theorem defaultValue (ty : TypeKind) :
    r.Has (h.defaultValue ty).1 ∧ (h.defaultValue ty).2.Confined r := by
  cases ty with
  | list => exact H.newList nofun
  | map => exact H.newMap Reach.hasMap_empty
  | array => exact ⟨H.sequences.fresh _ (Nat.le_refl _), H.newSequence nofun⟩
  | ref => exact ⟨H.slot_size, H.newSlot trivial⟩
  | _ => exact ⟨trivial, H⟩

theorem copySequence (hi : r.sequence i) : r.sequence (h.newSequence (h.sequence i)).1 ∧
    (h.newSequence (h.sequence i)).2.Confined r :=
  ⟨H.sequences.fresh _ (Nat.le_refl _), H.newSequence fun _ hv => H.element hi hv⟩

theorem shallowCopy {w : Value} {h' : Heap} (hv : r.Has v) (hw : h.shallowCopy? v = some (w, h')) :
    r.Has w ∧ h'.Confined r := by
  cases v with
  | list i | array i =>
    cases hw
    exact H.copySequence hv
  | map i =>
    cases hw
    exact H.newMap (H.maps.ok i hv)
  | coroutine i =>
    cases hw
    exact H.restart hv
  | object i => cases hw
  | _ =>
    cases hw
    exact ⟨hv, H⟩

theorem cast {w : Value} {h' : Heap} {ty : TypeKind} (hv : r.Has v) (hw : h.cast v ty = .ok (w, h')) :
    r.Has w ∧ h'.Confined r := by
  unfold Heap.cast at hw
  cases hnull : v.isNull with
  | true =>
    rw [hnull, if_pos rfl] at hw
    cases hw
    exact ⟨hv, H⟩
  | false =>
    simp only [hnull, Bool.false_eq_true, if_false] at hw
    cases ty with
    | any | void =>
      cases hw
      exact ⟨hv, H⟩
    | byte | short | char | int | long | float | double =>
      dsimp only at hw
      split at hw
      · rename_i hnumber
        cases hw
        exact ⟨Reach.has_primitive (primitive_toNumber hnumber), H⟩
      · cases hw
    | bool =>
      cases hw
      exact ⟨trivial, H⟩
    | string =>
      cases v with
      | str s =>
        cases hw
        exact ⟨trivial, H⟩
      | _ =>
        dsimp only at hw
        generalize h.render _ = text at hw
        cases text <;> cases hw
        exact ⟨trivial, H⟩
    | list | array =>
      cases v with
      | list i | array i =>
        cases hw
        first
          | exact ⟨hv, H⟩
          | exact H.copySequence hv
      | _ => cases hw
    | map | coroutine | consumer | object =>
      cases v <;> cases hw
      exact ⟨hv, H⟩
    | ref =>
      cases v with
      | ref i =>
        cases hw
        exact ⟨hv, H⟩
      | _ =>
        cases hw
        exact ⟨H.slot_size, H.newSlot hv⟩

end Heap.Confined
end TreeScript
