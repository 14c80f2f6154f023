import TreeScript.Proofs.Constructs
import TreeScript.Proofs.Endings.Branching
import TreeScript.Proofs.Requests

/-
# Structures that end

Lists, arrays, maps and references are shared and change in place, so what is inside a value is a graph,
and rendering walks through it without remembering where it has been.  The walk ends if and only if no
path through the value goes on for ever (`Heap.Acyclic`).
-/

namespace TreeScript

open Exec Relation

/-! ## What is inside a value -/

/-- The values of which a text is made. -/
def TextShape.parts : TextShape → List Value
  | .text _ | .object _ => []
  | .same v => [v]
  | .row _ _ items => items
  | .entries es => es.flatMap fun (k, v) => [k, v]

namespace Heap

/-- The values directly inside a value. -/
def parts (h : Heap) (v : Value) : List Value := (h.shape v false).parts

/-- No path through a value goes on for ever. -/
def Acyclic (h : Heap) (v : Value) : Prop := Ends h.parts v

/-- The values that two lists or maps are compared by. -/
def compared (h : Heap) : Value → List Value
  | .list i => (h.sequence i).toList
  | .map i => (h.mapAt i).values
  | _ => []

variable {h : Heap} {v w : Value} {depth : Nat}

/-- Quotes make no difference. -/
theorem parts_shape (h : Heap) (v : Value) (nested : Bool) : (h.shape v nested).parts = h.parts v := by
  cases v <;> rfl

theorem compared_subset (hw : w ∈ h.compared v) : w ∈ h.parts v := by
  cases v with
  | list i => exact hw
  | map i =>
    obtain ⟨e, he, rfl⟩ := List.mem_map.mp hw
    exact List.mem_flatMap.mpr ⟨e, he, List.mem_cons_of_mem _ List.mem_cons_self⟩
  | _ => cases hw

/-- The containers and slots of a heap. -/
abbrev Cell (h : Heap) : Type := Fin h.sequences.size ⊕ Fin h.maps.size ⊕ Fin h.slots.size

/-- The container or slot that has what is inside a value. -/
def cell? (h : Heap) : Value → Option h.Cell
  | .list i | .array i => if hi : i < h.sequences.size then some (.inl ⟨i, hi⟩) else none
  | .map i => if hi : i < h.maps.size then some (.inr (.inl ⟨i, hi⟩)) else none
  | .ref i => if hi : i < h.slots.size then some (.inr (.inr ⟨i, hi⟩)) else none
  | _ => none

/-- What is inside a container or slot. -/
def Cell.parts : h.Cell → List Value
  | .inl i => (h.sequence i).toList
  | .inr (.inl i) => (h.mapAt i).entries.flatMap fun (k, w) => [k, w]
  | .inr (.inr i) => [h.valueAt i]

theorem parts_of_cell {c : h.Cell} (hc : h.cell? v = some c) : h.parts v = c.parts := by
  cases v <;> simp only [cell?] at hc <;> first | (split at hc <;> cases hc; rfl) | cases hc

/-- What is in no cell is at its end, or refers to nothing. -/
theorem parts_of_no_cell (hc : h.cell? v = none) : ∀ w ∈ h.parts v, h.parts w = [] := by
  have hempty : ∀ i, ¬ i < h.sequences.size → (h.sequence i).toList = [] := by
    intro i hi
    rw [sequence, Array.getD, dif_neg hi]
  cases v with
  | list i | array i =>
    simp only [cell?] at hc
    split at hc
    · cases hc
    · rename_i hi
      intro w hw
      rw [show h.parts _ = (h.sequence i).toList from rfl, hempty i hi] at hw
      cases hw
  | map i =>
    simp only [cell?] at hc
    split at hc
    · cases hc
    · rename_i hi
      intro w hw
      have hmap : h.mapAt i = .empty := by rw [mapAt, Array.getD, dif_neg hi]
      rw [show h.parts _ = (h.mapAt i).entries.flatMap _ from rfl, hmap] at hw
      cases hw
  | ref i =>
    simp only [cell?] at hc
    split at hc
    · cases hc
    · rename_i hi
      intro w hw
      have hslot : h.slot i = default := by
        rw [slot, Array.getD, dif_neg hi]
      obtain rfl : w = h.valueAt i := List.mem_singleton.mp hw
      rw [valueAt, hslot]
      rfl
  | _ => exact nofun

/-- Walks through values that end do so within the bound for depths. -/
theorem Acyclic.within (hv : h.Acyclic v) : EndsWithin h.parts h.depthBound v := by
  have hcard : Fintype.card h.Cell + 2 = h.depthBound := by
    rw [depthBound, Fintype.card_sum, Fintype.card_sum, Fintype.card_fin, Fintype.card_fin,
      Fintype.card_fin, Nat.add_assoc]
    omega
  rw [← hcard]
  refine Ends.within (f := h.cell?) (fun a b c ha hb => ?_) (fun _ => parts_of_no_cell) hv
  rw [parts_of_cell ha, parts_of_cell hb]

/-! ## Rendering -/

theorem mapM_isSome {α β : Type} (f : α → Option β) (items : List α) :
    (items.mapM f).isSome = true ↔ ∀ a ∈ items, (f a).isSome = true := by
  induction items with
  | nil => simp
  | cons a items ih =>
    rw [List.mapM_cons, List.forall_mem_cons, ← ih]
    cases f a <;> cases items.mapM f <;> simp

/-- What is made from a result is there if the result is. -/
theorem isSome_make {α β : Type} (x : Option α) (f : α → β) :
    (do return f (← x) : Option β).isSome = x.isSome := by
  cases x <;> rfl

/-- A value has a text down to a depth if and only if it ends within that depth. -/
theorem renderTo_isSome (h : Heap) (depth : Nat) (v : Value) (nested : Bool) :
    (h.renderTo depth v nested).isSome = true ↔ EndsWithin h.parts depth v := by
  induction depth generalizing v nested with
  | zero => simp [renderTo, EndsWithin]
  | succ depth ih =>
    rw [renderTo, EndsWithin, ← parts_shape h v nested]
    -- by what the text of the value is made from
    cases h.shape v nested with
    | text s | object i => simp [TextShape.parts]
    | same w => simp [TextShape.parts, ih]
    | row separator inner items =>
      dsimp only
      rw [isSome_make, mapM_isSome]
      simp only [ih, TextShape.parts]
    | entries es =>
      have hentry : ∀ e : Value × Value, (do
          return entryText (← h.renderTo depth e.1 false) (← h.renderTo depth e.2 true)
            : Option String).isSome = true ↔
          EndsWithin h.parts depth e.1 ∧ EndsWithin h.parts depth e.2 := by
        intro e
        rw [← ih e.1 false, ← ih e.2 true]
        cases h.renderTo depth e.1 false <;> cases h.renderTo depth e.2 true <;> simp
      dsimp only
      rw [isSome_make, mapM_isSome]
      simp only [hentry, TextShape.parts, List.mem_flatMap, List.mem_cons, List.not_mem_nil, or_false]
      constructor
      · rintro hall b ⟨e, he, rfl | rfl⟩
        · exact (hall e he).1
        · exact (hall e he).2
      · exact fun hall e he => ⟨hall e.1 ⟨e, he, Or.inl rfl⟩, hall e.2 ⟨e, he, Or.inr rfl⟩⟩

/-- A value has a text if and only if no path through it goes on for ever. -/
theorem render_ends_iff (h : Heap) (v : Value) : (∃ s, h.render v = .ok s) ↔ h.Acyclic v := by
  have hsome : (∃ s, h.render v = .ok s) ↔ (h.renderTo h.depthBound v false).isSome = true := by
    rw [render]
    cases h.renderTo h.depthBound v false <;> simp [Checked.ofEnding]
  rw [hsome, renderTo_isSome]
  exact ⟨EndsWithin.ends, Acyclic.within⟩

/-! ## Equality -/

theorem allM_isSome {α : Type} {f : α → Option Bool} {items : List α}
    (h : ∀ a ∈ items, (f a).isSome = true) : (items.allM f).isSome = true := by
  induction items with
  | nil => rfl
  | cons a items ih =>
    obtain ⟨b, hb⟩ := Option.isSome_iff_exists.mp (h a List.mem_cons_self)
    rw [List.allM, hb]
    cases b with
    | false => rfl
    | true => exact ih fun c hc => h c (List.mem_cons_of_mem a hc)

theorem mem_values_of_find? {m : OrderedMap} {k y : Value} (hy : m.find? k = some y) :
    y ∈ m.values := by
  obtain ⟨⟨i, e⟩, hentry, rfl⟩ := Option.map_eq_some_iff.mp hy
  obtain ⟨_, _, hentry⟩ := Option.bind_eq_some_iff.mp hentry
  obtain ⟨_, he, heq⟩ := Option.bind_eq_some_iff.mp hentry
  cases heq
  exact List.mem_map_of_mem (List.mem_of_getElem? he)

/-- What two values are compared by is the elements of lists and the values of maps. -/
theorem equalTo_succ_isSome
    (hlist : ∀ i j, v = .list i → w = .list j →
      ∀ p ∈ (h.sequence i).toList.zip (h.sequence j).toList, (h.equalTo depth p.1 p.2).isSome = true)
    (hmap : ∀ i j, v = .map i → w = .map j → ∀ e ∈ (h.mapAt i).entries, ∀ y,
      (h.mapAt j).find? e.1 = some y → (h.equalTo depth y e.2).isSome = true) :
    (h.equalTo (depth + 1) v w).isSome = true := by
  rw [equalTo.eq_def]
  dsimp only
  split
  · rfl
  · rfl
  · rename_i i j
    split
    · rfl
    · split
      · rfl
      · exact allM_isSome (hlist i j rfl rfl)
  · rename_i i j
    split
    · rfl
    · split
      · rfl
      · refine allM_isSome fun e he => ?_
        cases hy : (h.mapAt j).find? e.1 with
        | none => rfl
        | some y => exact hmap i j rfl rfl e he y hy
  · rfl

/-- A comparison ends within a depth if what one of its sides is compared by does. -/
theorem equalTo_isSome (hv : EndsWithin h.compared depth v) (w : Value) :
    (h.equalTo depth v w).isSome = true ∧ (h.equalTo depth w v).isSome = true := by
  induction depth generalizing v w with
  | zero => exact hv.elim
  | succ depth ih =>
    -- the side that ends may be the first or the second one
    constructor
    · refine equalTo_succ_isSome ?_ ?_
      · rintro i j rfl rfl p hp
        exact (ih (hv p.1 (List.of_mem_zip hp).1) p.2).1
      · rintro i j rfl rfl e he y _
        exact (ih (hv e.2 (List.mem_map_of_mem he)) y).2
    · refine equalTo_succ_isSome ?_ ?_
      · rintro i j rfl rfl p hp
        exact (ih (hv p.2 (List.of_mem_zip hp).2) p.1).2
      · rintro i j rfl rfl e _ y hy
        exact (ih (hv y (mem_values_of_find? hy)) e.2).1

/-- The list or map that has what a value is compared by. -/
def comparedCell? (h : Heap) : Value → Option (Fin h.sequences.size ⊕ Fin h.maps.size)
  | .list i => if hi : i < h.sequences.size then some (.inl ⟨i, hi⟩) else none
  | .map i => if hi : i < h.maps.size then some (.inr ⟨i, hi⟩) else none
  | _ => none

theorem compared_of_cell {c : Fin h.sequences.size ⊕ Fin h.maps.size}
    (hc : h.comparedCell? v = some c) :
    h.compared v = c.elim (fun i : Fin _ => (h.sequence i).toList) fun i : Fin _ =>
      (h.mapAt i).values := by
  cases v <;> simp only [comparedCell?] at hc <;> first | (split at hc <;> cases hc; rfl) | cases hc

theorem compared_of_no_cell (hc : h.comparedCell? v = none) : h.compared v = [] := by
  cases v with
  | list i =>
    simp only [comparedCell?] at hc
    split at hc
    · cases hc
    · rename_i hi
      rw [compared, sequence, Array.getD, dif_neg hi]
  | map i =>
    simp only [comparedCell?] at hc
    split at hc
    · cases hc
    · rename_i hi
      rw [compared, mapAt, Array.getD, dif_neg hi]
      rfl
  | _ => rfl

/-- Comparisons with what ends do so within the bound for them. -/
theorem Acyclic.compared_within (hv : h.Acyclic v) : EndsWithin h.compared h.pairBound v := by
  have hends : Ends h.compared v := hv.of_subset fun _ _ => compared_subset
  have hwithin := hends.within (f := h.comparedCell?)
    (fun a b c ha hb => by rw [compared_of_cell ha, compared_of_cell hb])
    (fun a ha b hb => by rw [compared_of_no_cell ha] at hb; cases hb)
  refine hwithin.mono ?_
  rw [Fintype.card_sum, Fintype.card_fin, Fintype.card_fin, pairBound]
  exact Nat.succ_le_succ (Nat.le_mul_self _)

/-- Comparing ends if one of the two sides does. -/
theorem structurallyEqual_ends (hv : h.Acyclic v ∨ h.Acyclic w) :
    ∃ b, h.structurallyEqual v w = .ok b := by
  have hsome : (h.equalTo h.pairBound v w).isSome = true := by
    rcases hv with hv | hw
    · exact (equalTo_isSome hv.compared_within w).1
    · exact (equalTo_isSome hw.compared_within v).2
  obtain ⟨b, hb⟩ := Option.isSome_iff_exists.mp hsome
  exact ⟨b, by rw [structurallyEqual, hb]; rfl⟩

/-- Whether two values are equal is always said if both end. -/
theorem valuesEqual_ends (hv : h.Acyclic v) (hw : h.Acyclic w) (k : Halt) :
    h.valuesEqual v w ≠ .error (.halt k) := by
  have htexts : (do return (← h.render v) == (← h.render w) : Checked Bool) ≠ .error (.halt k) := by
    obtain ⟨s, hs⟩ := (render_ends_iff h v).mpr hv
    obtain ⟨t, ht⟩ := (render_ends_iff h w).mpr hw
    rw [hs, ht]
    nofun
  have hstructures : h.structurallyEqual v w ≠ .error (.halt k) := by
    obtain ⟨b, hb⟩ := structurallyEqual_ends (w := w) (Or.inl hv)
    rw [hb]
    nofun
  have hpromoted : ∀ r : Except EvalError Value,
      (do let u ← checked r; return u == .bool true : Checked Bool) ≠ .error (.halt k) := by
    intro r
    cases r <;> nofun
  -- the kinds of the two values, in the order in which they are tried
  unfold valuesEqual
  split
  · nofun
  · nofun
  · nofun
  · nofun
  · exact htexts
  · exact htexts
  · exact hstructures
  · exact hstructures
  · exact hstructures
  · exact hstructures
  · split
    · exact hpromoted _
    · nofun

end Heap

/-! ## The texts of values in evaluations -/

/-- An evaluation does not halt, and leads from heaps of a kind to such heaps. -/
def Exec.Runs (ev : Evaluator) (P : Heap → Prop) {α : Type} (x : Exec α) : Prop :=
  ∀ s, P s.heap → (∀ k, (x ev s).1 ≠ .halted k) ∧ P (x ev s).2.heap

namespace Exec.Runs

variable {ev : Evaluator} {P : Heap → Prop} {α β : Type}

protected theorem pure (a : α) : Runs ev P (pure a) := fun _ hs => ⟨nofun, hs⟩

protected theorem bind {x : Exec α} {f : α → Exec β} (hx : Runs ev P x) (hf : ∀ a, Runs ev P (f a)) :
    Runs ev P (x >>= f) := by
  intro s hs
  obtain ⟨hhalted, ht⟩ := hx s hs
  rw [bind_apply]
  generalize x ev s = r at hhalted ht
  rcases r with ⟨a | g | k, t⟩
  · exact hf a t ht
  · exact ⟨nofun, ht⟩
  · exact absurd rfl (hhalted k)

protected theorem mapM {f : β → Exec α} {items : List β} (hf : ∀ b ∈ items, Runs ev P (f b)) :
    Runs ev P (items.mapM f) := by
  induction items with
  | nil => exact .pure []
  | cons b items ih =>
    rw [List.mapM_cons]
    exact .bind (hf b List.mem_cons_self) fun a =>
      .bind (ih fun c hc => hf c (List.mem_cons_of_mem b hc)) fun as => .pure (a :: as)

protected theorem holding (container : Value) {x : Exec α} (hx : Runs ev P x) :
    Runs ev P (holding container x) := fun s hs => hx (s.withHeld (container :: s.held)) hs

end Exec.Runs

namespace Heap

variable {h : Heap} {v w : Value} {ev : Evaluator} {depth : Nat}

/-- Another heap has the same inside a value. -/
def Shows (h : Heap) (v : Value) (h' : Heap) : Prop :=
  ∀ w nested, Leads h.parts v w → h'.shape w nested = h.shape w nested

/-- The classes of the objects inside a value give their texts, or fail, and leave what is inside the
value as it is. -/
def ObjectsAnswer (h : Heap) (v : Value) (ev : Evaluator) : Prop :=
  ∀ i, Leads h.parts v (.object i) → Runs ev (h.Shows v) (objectText i)

theorem eq_object_of_shape {nested : Bool} {i : Nat} (hw : h.shape w nested = .object i) :
    w = .object i := by
  cases w <;> cases hw
  rfl

/-- What is inside a value is rendered down to a depth within which it ends. -/
theorem runs_stringifyTo (hobjects : h.ObjectsAnswer v ev) (hw : Leads h.parts v w)
    (hends : EndsWithin h.parts depth w) (nested : Bool) :
    Runs ev (h.Shows v) (stringifyTo depth w nested) := by
  induction depth generalizing w nested with
  | zero => exact hends.elim
  | succ depth ih =>
    -- the parts are inside the same value, and end one level earlier
    have hpart : ∀ u ∈ (h.shape w nested).parts, ∀ nested,
        Runs ev (h.Shows v) (stringifyTo depth u nested) := by
      intro u hu nested
      rw [parts_shape] at hu
      exact ih (hw.tail hu) (hends u hu) nested
    intro s hs
    have hshape := hs w nested hw
    rw [stringifyTo, bind_apply]
    dsimp only [Exec.heap]
    rw [hshape]
    cases hcase : h.shape w nested with
    | text t => exact Runs.pure t s hs
    | object i =>
      obtain rfl := eq_object_of_shape hcase
      exact hobjects i hw s hs
    | same u => exact hpart u (by rw [hcase]; exact List.mem_cons_self) nested s hs
    | row separator inner items =>
      refine Runs.holding w (.bind (.mapM fun u hu => hpart u ?_ inner) fun texts => .pure _) s hs
      rw [hcase]
      exact hu
    | entries es =>
      refine Runs.holding w (.bind (.mapM fun e he => ?_) fun texts => .pure _) s hs
      have hmem : ∀ u ∈ [e.1, e.2], u ∈ (h.shape w nested).parts := fun u hu => by
        rw [hcase]
        exact List.mem_flatMap.mpr ⟨e, he, hu⟩
      exact .bind (hpart e.1 (hmem e.1 (by simp)) false) fun key =>
        .bind (hpart e.2 (hmem e.2 (by simp)) true) fun value => .pure _

/-- The text of a value that ends is given, or an object in it fails to give its own. -/
theorem Acyclic.runs_stringify (hv : h.Acyclic v) (hobjects : h.ObjectsAnswer v ev)
    (hfuel : h.depthBound ≤ ev.fuel) : Runs ev (h.Shows v) (stringify v) :=
  runs_stringifyTo hobjects .refl (hv.within.mono hfuel) false

/-- The outcome of an evaluation that gives a result if there is one. -/
def given {α : Type} (r : Option α) (s : State) : Outcome α × State :=
  (r.elim (.halted .outOfFuel) .value, s)

theorem bind_given {α β : Type} {x : Exec α} {r : Option α} {f : α → Exec β} {g : α → Option β}
    {s : State} (hx : x ev s = given r s) (hf : ∀ a, f a ev s = given (g a) s) :
    (x >>= f) ev s = given (r >>= g) s := by
  rw [bind_apply, hx]
  cases r with
  | none => rfl
  | some a => exact hf a

theorem mapM_given {α β : Type} {f : β → Exec α} {g : β → Option α} {items : List β} {s : State}
    (hf : ∀ b ∈ items, f b ev s = given (g b) s) : items.mapM f ev s = given (items.mapM g) s := by
  induction items with
  | nil => rfl
  | cons b items ih =>
    rw [List.mapM_cons, List.mapM_cons]
    refine bind_given (hf b List.mem_cons_self) fun a => ?_
    exact bind_given (ih fun c hc => hf c (List.mem_cons_of_mem b hc)) fun _ => rfl

theorem holding_given {α : Type} {x : Exec α} {r : Option α} {c : Value} {s : State}
    (hx : x ev (s.withHeld (c :: s.held)) = given r (s.withHeld (c :: s.held))) :
    holding c x ev s = given r s := by
  have hholding : holding c x ev s = ((x ev (s.withHeld (c :: s.held))).1,
      (x ev (s.withHeld (c :: s.held))).2.withHeld s.held) := rfl
  rw [hholding, hx]
  rfl

/-- No object inside a value has a say in its text: each is shown by its label. -/
def Labelled (h : Heap) (v : Value) : Prop :=
  ∀ i, Leads h.parts v (.object i) → (h.classOf i).method? "cast" 1 = none

theorem objectText_label {i : Nat} {s : State} (hnone : (s.heap.classOf i).method? "cast" 1 = none) :
    objectText i ev s = (.value (s.heap.objectLabel i), s) := by
  have hask : askCast i "string" ev s = (.value none, s) := by
    rw [askCast, bind_apply]
    dsimp only [Exec.heap]
    rw [hnone]
    rfl
  rw [objectText, bind_apply, hask]
  rfl

/-- The text that evaluations give where objects are shown by their labels is the text that a value has
down to the same depth. -/
theorem stringifyTo_eq (hlabels : h.Labelled v) (depth : Nat) (nested : Bool) {s : State}
    (hs : s.heap = h) :
    stringifyTo depth v nested ev s = given (h.renderTo depth v nested) s := by
  induction depth generalizing v nested s with
  | zero => rfl
  | succ depth ih =>
    -- a part is rendered at one depth less, in a state that may hold the value but has the same heap
    have hpart : ∀ u ∈ (h.shape v nested).parts, ∀ nested (t : State), t.heap = h →
        stringifyTo depth u nested ev t = given (h.renderTo depth u nested) t := by
      intro u hu nested t ht
      rw [parts_shape] at hu
      exact ih (fun i hi => hlabels i (.head hu hi)) nested ht
    rw [stringifyTo, renderTo, bind_apply]
    dsimp only [Exec.heap]
    rw [hs]
    cases hcase : h.shape v nested with
    | text t => rfl
    | object i =>
      obtain rfl := eq_object_of_shape hcase
      subst hs
      exact objectText_label (hlabels i .refl)
    | same u => exact hpart u (by rw [hcase]; exact List.mem_cons_self) nested s hs
    | row separator inner items =>
      refine holding_given (bind_given (mapM_given fun u hu => ?_) fun _ => rfl)
      exact hpart u (by rw [hcase]; exact hu) inner _ hs
    | entries es =>
      refine holding_given (bind_given (mapM_given fun e he => ?_) fun _ => rfl)
      have hmem : ∀ u ∈ [e.1, e.2], u ∈ (h.shape v nested).parts := fun u hu => by
        rw [hcase]
        exact List.mem_flatMap.mpr ⟨e, he, hu⟩
      refine bind_given (hpart e.1 (hmem e.1 (by simp)) false _ hs) fun key => ?_
      exact bind_given (hpart e.2 (hmem e.2 (by simp)) true _ hs) fun value => rfl

/-- The text of a value without objects through which a path goes on for ever is never given. -/
theorem stringify_endless (hnone : ∀ i, ¬ Leads h.parts v (.object i)) (hv : ¬ h.Acyclic v) {s : State}
    (hs : s.heap = h) : stringify v ev s = (.halted .outOfFuel, s) := by
  have hnever : h.renderTo ev.fuel v false = none := by
    rw [← Option.not_isSome_iff_eq_none, renderTo_isSome]
    exact fun hends => hv hends.ends
  show stringifyTo ev.fuel v false ev s = _
  rw [stringifyTo_eq (fun i hi => absurd hi (hnone i)) ev.fuel false hs, hnever]
  rfl

end Heap

/-- **Rendering and comparing end where nothing contains itself.**  A value has a text if and only if no path
through it goes on for ever; in evaluations it then has one too, unless an object inside it fails to give
its own.  Two values are compared if one of them ends, and whether they are equal is said if both do. -/
theorem walks_end (h : Heap) (v w : Value) :
    ((∃ s, h.render v = .ok s) ↔ h.Acyclic v) ∧
    (h.Acyclic v ∨ h.Acyclic w → ∃ b, h.structurallyEqual v w = .ok b) ∧
    (h.Acyclic v → h.Acyclic w → ∀ k, h.valuesEqual v w ≠ .error (.halt k)) ∧
    ∀ (ev : Evaluator) (s : State), s.heap = h → h.depthBound ≤ ev.fuel → h.ObjectsAnswer v ev →
      h.Acyclic v → ∀ k, (stringify v ev s).1 ≠ .halted k := by
  refine ⟨Heap.render_ends_iff h v, Heap.structurallyEqual_ends, Heap.valuesEqual_ends, ?_⟩
  rintro ev s rfl hfuel hobjects hv
  exact (hv.runs_stringify hobjects hfuel s fun _ _ _ => rfl).1

/-- A list with a number and a map in it. -/
def nestedHeap : Heap :=
  { Heap.empty with
    sequences := #[#[.int 1, .map 0]]
    maps := #[.ofList [(.str "a", .int 2)]] }

/-- The list has a text, is compared with itself and is found equal to itself. -/
theorem walks_end_nestedHeap :
    let h := nestedHeap
    let s : State := ⟨h, .empty, [], .blank 1 0 Host.bare⟩
    h.Acyclic (.list 0) ∧ (∃ t, h.render (.list 0) = .ok t) ∧
    (∃ b, h.structurallyEqual (.list 0) (.list 0) = .ok b) ∧
    (∀ k, h.valuesEqual (.list 0) (.list 0) ≠ .error (.halt k)) ∧ h.depthBound ≤ 10 ∧
    h.ObjectsAnswer (.list 0) (evaluator 10) ∧ ∀ k, (stringify (.list 0) (evaluator 10) s).1 ≠ .halted k := by
  intro h s
  have hends : h.Acyclic (.list 0) := EndsWithin.ends (n := 4) (by decide)
  have hclosed : ∀ v ∈ [.list 0, .int 1, .map 0, .str "a", .int 2], ∀ w ∈ h.parts v,
      w ∈ [Value.list 0, .int 1, .map 0, .str "a", .int 2] := by decide
  have hobjects : h.ObjectsAnswer (.list 0) (evaluator 10) := by
    intro i hi
    have hmem := hi.mem hclosed List.mem_cons_self
    simp at hmem
  have hbound : h.depthBound ≤ 10 := by decide
  obtain ⟨hrender, hcompare, hequal, htext⟩ := walks_end h (.list 0) (.list 0)
  exact ⟨hends, hrender.mpr hends, hcompare (Or.inl hends), hequal hends hends, hbound, hobjects,
    htext (evaluator 10) s rfl hbound hobjects hends⟩

/-! ## What contains itself -/

/-- A session that is not marked and has a budget may take some more nodes. -/
structure State.MayTake (s : State) (nodes : Nat) : Prop where
  unmarked : s.session.cancellation.marked = false
  budget : ∃ b, s.session.meter.budget = some b ∧ s.session.meter.steps + nodes ≤ b

theorem enterNode_mayTake {s : State} {n : Nat} (h : s.MayTake (n + 1)) :
    ∃ m, (∀ ev, enterNode ev s = (.value (), s.withMeter m)) ∧ (s.withMeter m).MayTake n := by
  obtain ⟨hmarked, b, hbudget, hsteps⟩ := h
  have hstep : s.session.meter.step =
      (.ok (), ⟨s.session.meter.steps + 1, some b, s.session.meter.counters⟩) := by
    rw [Meter.step, hbudget]
    dsimp only
    rw [if_neg (by omega)]
  refine ⟨Meter.countNode ⟨s.session.meter.steps + 1, some b, s.session.meter.counters⟩,
    fun ev => ?_, hmarked, b, rfl, ?_⟩
  · rw [enterNode_apply, hmarked, hstep]
    rfl
  · show s.session.meter.steps + 1 + n ≤ b
    omega

/-- A node that may be evaluated is evaluated as its kind says. -/
theorem evaluateNode_of_enterNode {s t : State} (h : ∀ ev, enterNode ev s = (.value (), t)) (n : Nat)
    (e : Node) (c : Nat) : evaluateNode (n + 1) e c s = dispatch e c (evaluator n) t := by
  show (enterNode >>= fun _ => dispatch e c) (evaluator n) s = _
  rw [bind_apply, h]

/-- A sum with a text of what contains itself is never evaluated, though only three nodes are. -/
theorem evaluateNode_sum_endless {s : State} {c i : Nat} {x : String} (hs : s.MayTake 3)
    (hx : s.heap.read c x = .list i) (hnone : ∀ j, ¬ Leads s.heap.parts (.list i) (.object j))
    (hcycle : ¬ s.heap.Acyclic (.list i)) (n : Nat) :
    (evaluateNode n (.binary .add (.var x) (.literal (.str ""))) c s).1 = .halted .outOfFuel := by
  obtain ⟨m₁, h₁, hs₁⟩ := enterNode_mayTake hs
  obtain ⟨m₂, h₂, hs₂⟩ := enterNode_mayTake hs₁
  obtain ⟨m₃, h₃, _⟩ := enterNode_mayTake hs₂
  rcases n with _ | _ | n
  · rfl
  · rw [evaluateNode_of_enterNode h₁]
    rfl
  · have hleft : eval (.var x) c (evaluator (n + 1)) (s.withMeter m₁) =
        (.value (.list i), (s.withMeter m₁).withMeter m₂) := by
      rw [← hx]
      exact evaluateNode_of_enterNode h₂ n (.var x) c
    have hright : eval (.literal (.str "")) c (evaluator (n + 1))
        ((s.withMeter m₁).withMeter m₂) =
        (.value (.str ""), ((s.withMeter m₁).withMeter m₂).withMeter m₃) :=
      evaluateNode_of_enterNode h₃ n (.literal (.str "")) c
    have htext : stringify (.list i) (evaluator (n + 1))
        (((s.withMeter m₁).withMeter m₂).withMeter m₃) = (.halted .outOfFuel, _) :=
      Heap.stringify_endless hnone hcycle rfl
    rw [evaluateNode_of_enterNode h₁]
    show ((eval (.var x) c >>= fun l => eval (.literal (.str "")) c >>= fun r =>
      applyBinary .add l r) _ _).1 = _
    rw [bind_apply, hleft]
    dsimp only
    rw [bind_apply, hright]
    show ((stringify (.list i) >>= _ : Exec Value) _ _).1 = _
    rw [bind_apply, htext]

namespace Host

/-- Evaluations that make a list and put it inside itself. -/
def putInside (x : String) : List Request :=
  [.evaluate 0 (.declare .list x (some (.listLiteral [.literal .null]))),
    .evaluate 0 (.indexAssign (.var x) [.literal (.int 0)] (.var x))]

/-- A session with a budget of a hundred nodes, in which two lists have been put inside themselves. -/
def selfContaining : Host :=
  (Host.empty.serve (fun _ => evaluator 10)
    (.start ⟨.budgeted 100, .silent, false, false, 64⟩ :: putInside "l" ++ putInside "m")).2

/-- Where evaluations in the session begin. -/
def selfContainingState : State :=
  ⟨selfContaining.heap, selfContaining.sites, [],
    selfContaining.sessions.getD 0 (.blank 0 0 Host.bare)⟩

end Host

/-- **What contains itself is walked through for ever.**  A script with a budget of a hundred nodes puts
two lists inside themselves.  They have no text, down to no depth; whether they are equal is never said;
and a sum of three nodes, which asks for the text of one of them, is never evaluated, whatever the bound. -/
theorem selfContaining_endless :
    let s := Host.selfContainingState
    s.heap.read s.session.root "l" = .list 0 ∧ s.heap.read s.session.root "m" = .list 1 ∧
    (∀ depth nested, s.heap.renderTo depth (.list 0) nested = none) ∧
    (∀ depth, s.heap.equalTo depth (.list 0) (.list 1) = none) ∧
    s.heap.valuesEqual (.list 0) (.list 1) = .error (.halt .endless) ∧
    ∀ fuel, (evaluateNode fuel (.binary .add (.var "l") (.literal (.str ""))) s.session.root s).1 =
      .halted .outOfFuel := by
  intro s
  have hzero : s.heap.sequence 0 = #[.list 0] := by decide +kernel
  have hone : s.heap.sequence 1 = #[.list 1] := by decide +kernel
  have hparts : s.heap.parts (.list 0) = [.list 0] := congrArg Array.toList hzero
  have hl : s.heap.read s.session.root "l" = .list 0 := by decide +kernel
  -- the list is a part of itself, so that no depth is enough
  have hcycle : ¬ s.heap.Acyclic (.list 0) := fun h =>
    h.not_back (.single (by rw [hparts]; exact List.mem_cons_self))
  have hnone : ∀ j, ¬ Leads s.heap.parts (.list 0) (.object j) := by
    intro j hj
    have hclosed : ∀ v ∈ [Value.list 0], ∀ w ∈ s.heap.parts v, w ∈ [Value.list 0] := by
      simp [hparts]
    cases List.mem_singleton.mp (hj.mem hclosed List.mem_cons_self)
  have hequal : ∀ depth, s.heap.equalTo depth (.list 0) (.list 1) = none := by
    intro depth
    induction depth with
    | zero => rfl
    | succ depth ih =>
      rw [Heap.equalTo.eq_def]
      dsimp only
      rw [hzero, hone]
      simp [List.allM, ih]
  refine ⟨hl, by decide +kernel, fun depth nested => ?_, hequal, ?_, fun fuel => ?_⟩
  · rw [← Option.not_isSome_iff_eq_none, Heap.renderTo_isSome]
    exact fun h => hcycle h.ends
  · show s.heap.structurallyEqual (.list 0) (.list 1) = _
    rw [Heap.structurallyEqual, hequal]
    rfl
  · have hroom : s.MayTake 3 := ⟨by decide +kernel, 100, by decide +kernel, by decide +kernel⟩
    exact evaluateNode_sum_endless hroom hl hnone hcycle fuel

end TreeScript
