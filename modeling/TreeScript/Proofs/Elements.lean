import TreeScript.Proofs.Equality
import TreeScript.Proofs.Storage

/-
# Elements of containers

Keys lead through lists, arrays and maps to a place of a list or array, or to a key of a map
(`Heap.Finds`).  An assignment writes to this one cell, or it fails and nothing is different.  What the
keys lead to can only be another cell afterwards if the container that was written to is one of those that
they lead through, so that otherwise they find the value that was assigned (`index_assignment_lawful`).

Places count from the end if they are negative; how a key is read as a number is a matter of conversions.
Lists and arrays have their elements in the same kind of storage.
-/

namespace TreeScript

/-- A cell of a container: a place of a sequence, or a key of a map. -/
inductive Spot where
  | place (sequence place : Nat)
  | key (map : Nat) (key : Value)

namespace Spot

/-- Two cells are one: keys are told apart as maps do it. -/
def Same : Spot → Spot → Prop
  | place i n, place j m => i = j ∧ n = m
  | key i k, key j l => i = j ∧ MapKey.of k = MapKey.of l
  | _, _ => False

/-- A container has a cell in its storage. -/
def In : Spot → Value → Prop
  | place i _, .list j | place i _, .array j => i = j
  | key i _, .map j => i = j
  | _, _ => False

theorem Same.in_iff {spot other : Spot} (hsame : spot.Same other) (v : Value) : spot.In v ↔ other.In v := by
  cases spot <;> cases other <;> first | exact hsame.elim | (obtain ⟨rfl, -⟩ := hsame; cases v <;> rfl)

end Spot

/-- A key that is there keeps its place among the keys, and another comes last. -/
theorem OrderedMap.Consistent.keys_insert {m : OrderedMap} (hm : m.Consistent) (k v : Value) :
    (m.insert k v).keys = if (m.find? k).isSome then m.keys else m.keys ++ [k] := by
  cases hentry : m.entry? k with
  | none =>
    have hfind : (m.find? k).isSome = false := by rw [find?, hentry]; rfl
    rw [hfind, OrderedMap.insert, exchange, hentry, keys, List.map_append]
    rfl
  | some e =>
    obtain ⟨i, k', old⟩ := e
    obtain ⟨hold, -⟩ := hm.entry?_eq_some.mp hentry
    have hfind : (m.find? k).isSome = true := by rw [find?, hentry]; rfl
    have hkey : m.keys[i]? = some k' := by rw [keys, List.getElem?_map, hold]; rfl
    obtain ⟨hi, hkey⟩ := List.getElem?_eq_some_iff.mp hkey
    rw [hfind, OrderedMap.insert, exchange, hentry, keys, List.map_set, if_pos rfl]
    exact hkey ▸ List.set_getElem_self hi

namespace Heap

open Exec

variable {h h' : Heap} {base v w u new container key last : Value} {keys before passed : List Value}
  {spot other : Spot} {i n size : Nat}

/-! ## Cells -/

/-- What a cell has. -/
def content? (h : Heap) : Spot → Option Value
  | .place i n => (h.sequence i)[n]?
  | .key i k => (h.mapAt i).find? k

/-- Give a cell a value. -/
def put (h : Heap) (spot : Spot) (v : Value) : Heap :=
  match spot with
  | .place i n => h.setElement i n v
  | .key i k => h.setEntry i k v

/-- A key means a place of a sequence of a size: one counted from the front, or from the end if the number is
negative. -/
def Counts (key : Value) (size n : Nat) : Prop :=
  n < size ∧ ∃ raw, integerOf .long key = .ok raw ∧ (n : Int) = if raw < 0 then raw + size else raw

/-- The cell of a container that a key means. -/
inductive Designates (h : Heap) : Value → Value → Spot → Prop
  | list {i n : Nat} {key : Value} :
      Counts key (h.sequence i).size n → Designates h (.list i) key (.place i n)
  | array {i n : Nat} {key : Value} :
      Counts key (h.sequence i).size n → Designates h (.array i) key (.place i n)
  | map {i : Nat} {key : Value} : Designates h (.map i) key (.key i key)

/-- Keys lead from a value through containers to another value. -/
inductive Path (h : Heap) : Value → List Value → List Value → Value → Prop
  | nil {v : Value} : Path h v [] [] v
  | cons {v key u w : Value} {spot : Spot} {keys passed : List Value} :
      h.Designates v key spot → h.content? spot = some u → Path h u keys passed w →
      Path h v (key :: keys) (v :: passed) w

/-- Keys lead to a cell: the last one means it, in the container to which the others lead. -/
def Finds (h : Heap) (base : Value) (keys passed : List Value) (container : Value) (spot : Spot) : Prop :=
  ∃ before last, keys = before ++ [last] ∧ h.Path base before passed container ∧
    h.Designates container last spot

/-- A heap is another one but for a cell, which has a value now. -/
structure Written (h : Heap) (spot : Spot) (v : Value) (h' : Heap) : Prop where
  content : h'.content? spot = some v
  contents : ∀ other, ¬ spot.Same other → h'.content? other = h.content? other
  sequences : ∀ i, (∀ n, spot ≠ .place i n) → h'.sequence i = h.sequence i
  maps : ∀ i, (∀ k, spot ≠ .key i k) → h'.mapAt i = h.mapAt i
  /-- Sequences keep their lengths. -/
  sizes : ∀ i, (h'.sequence i).size = (h.sequence i).size
  /-- Maps keep their keys, and a new one comes last. -/
  keys : ∀ i k, spot = .key i k →
    (h'.mapAt i).keys = if ((h.mapAt i).find? k).isSome then (h.mapAt i).keys else (h.mapAt i).keys ++ [k]
  /-- There are as many containers as before, and nothing else is different. -/
  counts : h'.sequences.size = h.sequences.size ∧ h'.maps.size = h.maps.size
  rest : h' = { h with sequences := h'.sequences, maps := h'.maps }

theorem Designates.spot_in (hd : h.Designates container key spot) : spot.In container := by
  cases hd <;> rfl

theorem Designates.ne_object (hd : h.Designates container key spot) (i : Nat) : container ≠ .object i := by
  cases hd <;> nofun

/-! ## Reading -/

theorem placeOf_eq_ok_iff : placeOf h key size = .ok n ↔ Counts key size n := by
  have hnull : key.isNull = true → ∀ raw, integerOf .long key ≠ .ok raw := by
    cases key <;> nofun
  unfold placeOf Counts
  by_cases hkey : key.isNull = true
  · rw [if_pos hkey]
    refine iff_of_false nofun ?_
    rintro ⟨-, raw, hraw, -⟩
    exact hnull hkey raw hraw
  · rw [if_neg hkey]
    cases hraw : integerOf .long key with
    | error e =>
      refine iff_of_false nofun ?_
      rintro ⟨-, raw, heq, -⟩
      cases heq
    | ok raw =>
      show (if _ then _ else _) = _ ↔ _
      have hone : (∃ m, (Except.ok raw : Except EvalError Int) = .ok m ∧
          (n : Int) = if m < 0 then m + size else m) ↔ (n : Int) = if raw < 0 then raw + size else raw := by
        simp only [Except.ok.injEq, exists_eq_left']
      rw [hone]
      generalize (if raw < 0 then raw + size else raw) = place
      split
      · exact iff_of_false nofun (by omega)
      · show Except.ok place.toNat = _ ↔ _
        rw [Except.ok.injEq]
        omega

theorem sequence_lt (hn : n < (h.sequence i).size) : i < h.sequences.size := by
  by_contra hle
  rw [sequence, Array.getD, dif_neg hle] at hn
  exact absurd hn (Nat.not_lt_zero n)

theorem checked_eq_ok_iff {α : Type} {r : Except EvalError α} {a : α} : checked r = .ok a ↔ r = .ok a := by
  cases r with
  | error e => exact iff_of_false nofun nofun
  | ok b => simp only [checked, Except.ok.injEq]

/-- The element of a sequence for a key. -/
theorem sequence_element_iff {items : Array Value} :
    checked (do return items.getD (← placeOf h key items.size) .null) = .ok u ↔
      ∃ n, Counts key items.size n ∧ items[n]? = some u := by
  rw [checked_eq_ok_iff]
  constructor
  · intro hu
    cases hplace : placeOf h key items.size with
    | error e =>
      rw [hplace] at hu
      cases hu
    | ok n =>
      rw [hplace] at hu
      have hcounts := placeOf_eq_ok_iff.mp hplace
      have hget : items.getD n .null = u := Except.ok.inj hu
      rw [Array.getD, dif_pos hcounts.1] at hget
      exact ⟨n, hcounts, (Array.getElem?_eq_getElem hcounts.1).trans (congrArg some hget)⟩
  · rintro ⟨n, hcounts, hu⟩
    rw [placeOf_eq_ok_iff.mpr hcounts]
    show Except.ok (items.getD n .null) = _
    rw [Array.getD_eq_getD_getElem?, hu]
    rfl

/-- The element for a key is what its cell has. -/
theorem element_of_designates (hd : h.Designates v key spot) (hu : h.content? spot = some u)
    (lenient single : Bool) : element h v key lenient single = .ok u := by
  cases hd with
  | list hplace | array hplace => exact sequence_element_iff.mpr ⟨_, hplace, hu⟩
  | map =>
    unfold element
    dsimp only
    rw [show (h.mapAt _).find? key = some u from hu]

/-- Containers but strings have elements for the keys that mean cells. -/
theorem designates_of_element {single : Bool} (hu : element h v key false single = .ok u) :
    (∃ spot, h.Designates v key spot ∧ h.content? spot = some u) ∨ ∃ c, u = .char c := by
  cases v with
  | list i =>
    obtain ⟨n, hcounts, hget⟩ := sequence_element_iff.mp hu
    exact Or.inl ⟨_, .list hcounts, hget⟩
  | array i =>
    obtain ⟨n, hcounts, hget⟩ := sequence_element_iff.mp hu
    exact Or.inl ⟨_, .array hcounts, hget⟩
  | map i =>
    unfold element at hu
    dsimp only at hu
    split at hu
    · rename_i w hfind
      cases hu
      exact Or.inl ⟨_, .map, hfind⟩
    · rw [if_neg Bool.false_ne_true] at hu
      cases hkey : h.render key <;> rw [hkey] at hu <;> cases hu
  | str s =>
    unfold element at hu
    dsimp only at hu
    split at hu
    · rw [checked_eq_ok_iff] at hu
      cases hplace : placeOf h key (Units.ofString s).length <;> rw [hplace] at hu <;> cases hu
      exact Or.inr ⟨_, rfl⟩
    · cases hu
  | _ => cases hu

/-! ## Writing -/

/-- Keys that lead from a value meet no object that has to be asked for its element. -/
def Objectless (h : Heap) (v : Value) (keys : List Value) : Prop :=
  ∀ before passed i, before <+: keys → ¬ h.Path v before passed (.object i)

theorem Objectless.not_object (hv : h.Objectless v keys) (i : Nat) : v ≠ .object i := by
  rintro rfl
  exact hv [] [] i (List.nil_prefix) .nil

theorem Objectless.step (hv : h.Objectless v (key :: keys)) (hd : h.Designates v key spot)
    (hu : h.content? spot = some u) : h.Objectless u keys :=
  fun before passed i hbefore hpath =>
    hv (key :: before) (v :: passed) i (List.cons_prefix_cons.mpr ⟨rfl, hbefore⟩) (.cons hd hu hpath)

theorem Path.append (hpath : h.Path v before passed w) (hd : h.Designates w key spot)
    (hu : h.content? spot = some u) : h.Path v (before ++ [key]) (passed ++ [w]) u := by
  induction hpath with
  | nil => exact .cons hd hu .nil
  | cons hd' hu' _ ih => exact .cons hd' hu' (ih hd)

theorem sequence_setElement (h : Heap) (i n : Nat) (v : Value) (j : Nat) :
    (h.setElement i n v).sequence j =
      if i = j ∧ j < h.sequences.size then (h.sequence j).setIfInBounds n v else h.sequence j :=
  getD_modify h.sequences i j _

theorem mapAt_setEntry (h : Heap) (i : Nat) (k v : Value) (j : Nat) :
    (h.setEntry i k v).mapAt j =
      if i = j ∧ j < h.maps.size then (h.mapAt j).insert k v else h.mapAt j :=
  getD_modify h.maps i j _

/-- A place of a sequence is written to. -/
theorem written_place (hn : n < (h.sequence i).size) (v : Value) :
    h.Written (.place i n) v (h.put (.place i n) v) := by
  have hi := sequence_lt hn
  have hself : (h.setElement i n v).sequence i = (h.sequence i).setIfInBounds n v := by
    rw [sequence_setElement, if_pos ⟨rfl, hi⟩]
  have hother (j : Nat) (hj : i ≠ j) : (h.setElement i n v).sequence j = h.sequence j := by
    rw [sequence_setElement, if_neg fun hboth => hj hboth.1]
  constructor
  case content =>
    show ((h.setElement i n v).sequence i)[n]? = some v
    rw [hself, Array.getElem?_setIfInBounds_self_of_lt hn]
  case contents =>
    rintro (⟨j, m⟩ | ⟨j, k⟩) hne
    · show ((h.setElement i n v).sequence j)[m]? = (h.sequence j)[m]?
      by_cases hj : i = j
      · subst hj
        have hm : n ≠ m := fun hm => hne ⟨rfl, hm⟩
        rw [hself, Array.getElem?_setIfInBounds_ne hm]
      · rw [hother j hj]
    · rfl
  case sequences => exact fun j hj => hother j fun heq => hj n (heq ▸ rfl)
  case maps => exact fun _ _ => rfl
  case sizes =>
    intro j
    show ((h.setElement i n v).sequence j).size = _
    by_cases hj : i = j
    · subst hj
      rw [hself, Array.size_setIfInBounds]
    · rw [hother j hj]
  case keys => exact nofun
  case counts => exact ⟨Array.size_modify, rfl⟩
  case rest => rfl

/-- A key of a map is written to. -/
theorem written_key (hi : i < h.maps.size) (hm : (h.mapAt i).Consistent) (key v : Value) :
    h.Written (.key i key) v (h.put (.key i key) v) := by
  have hself : (h.setEntry i key v).mapAt i = (h.mapAt i).insert key v := by
    rw [mapAt_setEntry, if_pos ⟨rfl, hi⟩]
  have hother (j : Nat) (hj : i ≠ j) : (h.setEntry i key v).mapAt j = h.mapAt j := by
    rw [mapAt_setEntry, if_neg fun hboth => hj hboth.1]
  constructor
  case content =>
    show ((h.setEntry i key v).mapAt i).find? key = some v
    rw [hself, hm.find?_insert, if_pos rfl]
  case contents =>
    rintro (⟨j, m⟩ | ⟨j, k⟩) hne
    · rfl
    · show ((h.setEntry i key v).mapAt j).find? k = (h.mapAt j).find? k
      by_cases hj : i = j
      · subst hj
        rw [hself, hm.find?_insert, if_neg fun hk => hne ⟨rfl, hk⟩]
      · rw [hother j hj]
  case sequences => exact fun _ _ => rfl
  case maps => exact fun j hj => hother j fun heq => hj key (heq ▸ rfl)
  case sizes => exact fun _ => rfl
  case keys =>
    rintro j k ⟨⟩
    show ((h.setEntry i key v).mapAt i).keys = _
    rw [hself, hm.keys_insert]
  case counts => exact ⟨rfl, Array.size_modify⟩
  case rest => rfl

/-- What a key means is written to. -/
theorem written_put (hd : h.Designates container key spot) (hmaps : h.Recorded)
    (hlive : ∀ i, container = .map i → i < h.maps.size) (v : Value) : h.Written spot v (h.put spot v) := by
  cases hd with
  | list hcounts | array hcounts => exact written_place hcounts.1 v
  | @map i => exact written_key (hlive i rfl) (hmaps.consistent i) key v

/-- Keys mean the same cells after a write. -/
theorem Written.designates (hw : h.Written spot new h') (hd : h.Designates container key other) :
    h'.Designates container key other := by
  cases hd with
  | list hcounts => exact .list (hw.sizes _ ▸ hcounts)
  | array hcounts => exact .array (hw.sizes _ ▸ hcounts)
  | map => exact .map

/-- A path leads to the same after a write to no container on it. -/
theorem Written.path (hw : h.Written spot new h') (hpath : h.Path v keys passed u)
    (hpassed : ∀ w ∈ passed, ¬ spot.In w) : h'.Path v keys passed u := by
  induction hpath with
  | nil => exact .nil
  | @cons v key u w other keys passed hd hu hpath ih =>
    rw [List.forall_mem_cons] at hpassed
    refine .cons (hw.designates hd) ?_ (ih hpassed.2)
    rw [hw.contents other fun hsame => hpassed.1 ((Spot.Same.in_iff hsame v).mpr hd.spot_in)]
    exact hu

end Heap

namespace Exec

open Heap

variable {ev : Evaluator} {s t : State} {base v w u new container key last : Value}
  {keys before passed : List Value} {spot : Spot} {lenient single : Bool} {o : Outcome Value}

/-! ## Following keys -/

theorem walk_nil : walk lenient single v [] = pure v := by
  cases v <;> rfl

theorem walk_cons (hv : ∀ i, v ≠ .object i) :
    walk lenient single v (key :: keys) =
      (do
        let w ← ofChecked (← heap fun h => element h v key (keys.isEmpty && lenient) single)
        walk lenient single w keys) := by
  cases v <;> first | rfl | exact absurd rfl (hv _)

theorem walk_cons_ok (hv : ∀ i, v ≠ .object i)
    (hw : element s.heap v key (keys.isEmpty && lenient) single = .ok w) :
    walk lenient single v (key :: keys) ev s = walk lenient single w keys ev s := by
  rw [walk_cons hv]
  show (ofChecked (element s.heap v key (keys.isEmpty && lenient) single) >>= _ : Exec Value) ev s = _
  rw [hw]
  rfl

theorem walk_cons_error (hv : ∀ i, v ≠ .object i) {f : Fault}
    (hf : element s.heap v key (keys.isEmpty && lenient) single = .error f) :
    (walk lenient single v (key :: keys) ev s).2 = s ∧
      ∀ w, (walk lenient single v (key :: keys) ev s).1 ≠ .value w := by
  rw [walk_cons hv]
  show ((ofChecked (element s.heap v key (keys.isEmpty && lenient) single) >>= _ : Exec Value) ev s).2 = s ∧
    ∀ w, ((ofChecked (element s.heap v key (keys.isEmpty && lenient) single) >>= _ : Exec Value) ev s).1 ≠ _
  rw [hf]
  cases f <;> exact ⟨rfl, nofun⟩

/-- Keys lead to the end of a path. -/
theorem walk_of_path (hpath : s.heap.Path v keys passed w) :
    walk lenient single v keys ev s = (.value w, s) := by
  induction hpath with
  | nil =>
    rw [walk_nil]
    rfl
  | cons hd hu _ ih =>
    rw [walk_cons_ok hd.ne_object (element_of_designates hd hu _ _)]
    exact ih

/-- Where no object is met, following keys runs no code, and what is reached is at the end of a path, or a
char of a string. -/
theorem walk_objectless (hv : s.heap.Objectless v keys) :
    (walk false single v keys ev s).2 = s ∧ ∀ w, (walk false single v keys ev s).1 = .value w →
      (∃ passed, s.heap.Path v keys passed w) ∨ ∃ c, w = .char c := by
  have hfails {v key : Value} {keys : List Value} {f : Fault} (hv : ∀ i, v ≠ .object i)
      (hf : element s.heap v key (keys.isEmpty && false) single = .error f) :
      (walk false single v (key :: keys) ev s).2 = s ∧
        ∀ w, (walk false single v (key :: keys) ev s).1 ≠ .value w := walk_cons_error hv hf
  induction keys generalizing v with
  | nil =>
    rw [walk_nil]
    refine ⟨rfl, ?_⟩
    rintro w ⟨⟩
    exact Or.inl ⟨[], .nil⟩
  | cons key keys ih =>
    cases helement : element s.heap v key (keys.isEmpty && false) single with
    | error f =>
      obtain ⟨hstate, hnone⟩ := hfails hv.not_object helement
      exact ⟨hstate, fun w hw => absurd hw (hnone w)⟩
    | ok u =>
      rw [walk_cons_ok hv.not_object helement]
      rw [Bool.and_false] at helement
      rcases designates_of_element helement with ⟨spot, hd, hu⟩ | ⟨c, rfl⟩
      · obtain ⟨hstate, hvalue⟩ := ih (hv.step hd hu)
        refine ⟨hstate, fun w hw => (hvalue w hw).imp_left ?_⟩
        rintro ⟨passed, hpath⟩
        exact ⟨v :: passed, .cons hd hu hpath⟩
      · cases keys with
        | nil =>
          rw [walk_nil]
          refine ⟨rfl, ?_⟩
          rintro w ⟨⟩
          exact Or.inr ⟨c, rfl⟩
        | cons key keys =>
          -- a char has no elements
          have hobject : ∀ i, Value.char c ≠ .object i := nofun
          obtain ⟨f, hf⟩ : ∃ f, element s.heap (.char c) key (keys.isEmpty && false) single = .error f := ⟨_, rfl⟩
          obtain ⟨hstate, hnone⟩ := hfails hobject hf
          exact ⟨hstate, fun w hw => absurd hw (hnone w)⟩

/-! ## Assigning -/

theorem setElement_sequence {i : Nat} (hc : container = .list i ∨ container = .array i) (v : Value) :
    setElement container key v ev s =
      match placeOf s.heap key (s.heap.sequence i).size with
      | .ok n =>
        if container ∈ s.held then (.halted .heldContainer, s)
        else (.value v, s.withHeap (s.heap.setElement i n v))
      | .error e => (.signal (.error e), s) := by
  have hset : setElement container key v ev s =
      (do
        let place ← ofExcept (placeOf s.heap key (s.heap.sequence i).size)
        if ← isHeld container then halt .heldContainer
        else
          modifyHeap fun h => h.setElement i place v
          return v : Exec Value) ev s := by
    rcases hc with rfl | rfl <;> rfl
  rw [hset]
  cases placeOf s.heap key (s.heap.sequence i).size with
  | error e => rfl
  | ok n =>
    show (if s.held.contains container = true then _ else _ : Exec Value) ev s = _
    simp only [List.contains_iff_mem]
    split <;> rfl

theorem setElement_map {i : Nat} (v : Value) :
    setElement (.map i) key v ev s =
      if .map i ∈ s.held then (.halted .heldContainer, s)
      else (.value v, s.withHeap (s.heap.setEntry i key v)) := by
  show (if s.held.contains (.map i) = true then _ else _ : Exec Value) ev s = _
  simp only [List.contains_iff_mem]
  split <;> rfl

theorem setElement_of_designates (hd : s.heap.Designates container key spot) (hheld : container ∉ s.held)
    (v : Value) : setElement container key v ev s = (.value v, s.withHeap (s.heap.put spot v)) := by
  cases hd with
  | list hcounts =>
    rw [setElement_sequence (Or.inl rfl), placeOf_eq_ok_iff.mpr hcounts]
    exact if_neg hheld
  | array hcounts =>
    rw [setElement_sequence (Or.inr rfl), placeOf_eq_ok_iff.mpr hcounts]
    exact if_neg hheld
  | map =>
    rw [setElement_map]
    exact if_neg hheld

/-- A container without a cell for the key, or one that is being rendered, is not written to. -/
theorem setElement_fails (hobject : ∀ i, container ≠ .object i)
    (hno : ∀ spot, s.heap.Designates container key spot → container ∈ s.held) (v : Value) :
    (setElement container key v ev s).2 = s ∧ ∀ w, (setElement container key v ev s).1 ≠ .value w := by
  have hsequence {i : Nat} (hc : container = .list i ∨ container = .array i)
      (hcell : ∀ n, Counts key (s.heap.sequence i).size n → container ∈ s.held) :
      (setElement container key v ev s).2 = s ∧ ∀ w, (setElement container key v ev s).1 ≠ .value w := by
    rw [setElement_sequence hc]
    cases hplace : placeOf s.heap key (s.heap.sequence i).size with
    | error e => exact ⟨rfl, nofun⟩
    | ok n =>
      dsimp only
      rw [if_pos (hcell n (placeOf_eq_ok_iff.mp hplace))]
      exact ⟨rfl, nofun⟩
  cases container with
  | list i => exact hsequence (Or.inl rfl) fun n hn => hno _ (.list hn)
  | array i => exact hsequence (Or.inr rfl) fun n hn => hno _ (.array hn)
  | map i =>
    rw [setElement_map, if_pos (hno _ .map)]
    exact ⟨rfl, nofun⟩
  | object i => exact absurd rfl (hobject i)
  | _ => exact ⟨rfl, nofun⟩

theorem indexSet_concat (hbase : ∀ i, base ≠ .object i) (before : List Value) (last new : Value) :
    indexSet base (before ++ [last]) new =
      (do
        let container ← walk false (before.length == 1) base before
        setElement container last new) := by
  cases base with
  | object i => exact absurd rfl (hbase i)
  | _ => simp only [indexSet, List.getLast?_concat, List.dropLast_concat]

theorem indexSet_nil (hbase : ∀ i, base ≠ .object i) :
    indexSet base [] new = fail (.custom "index assignment needs at least one index") := by
  cases base <;> first | rfl | exact absurd rfl (hbase _)

theorem indexSet_of_finds (hbase : ∀ i, base ≠ .object i) (hfinds : s.heap.Finds base keys passed container spot)
    (hheld : container ∉ s.held) :
    indexSet base keys new ev s = (.value new, s.withHeap (s.heap.put spot new)) := by
  obtain ⟨before, last, rfl, hpath, hd⟩ := hfinds
  rw [indexSet_concat hbase, bind_apply, walk_of_path hpath]
  exact setElement_of_designates hd hheld new

/-- Keys that lead to no cell, or to one of a container that is being rendered, write nothing. -/
theorem indexSet_fails (hobjects : s.heap.Objectless base keys.dropLast)
    (hno : ∀ passed container spot, s.heap.Finds base keys passed container spot → container ∈ s.held) :
    (indexSet base keys new ev s).2 = s ∧ ∀ w, (indexSet base keys new ev s).1 ≠ .value w := by
  rcases List.eq_nil_or_concat keys with rfl | ⟨before, last, rfl⟩
  · rw [indexSet_nil hobjects.not_object]
    exact ⟨rfl, nofun⟩
  rw [List.concat_eq_append] at hobjects hno ⊢
  rw [List.dropLast_concat] at hobjects
  rw [indexSet_concat hobjects.not_object, bind_apply]
  obtain ⟨hstate, hvalue⟩ : (walk false (before.length == 1) base before ev s).2 = s ∧ _ :=
    walk_objectless hobjects
  rcases hwalk : walk false (before.length == 1) base before ev s with ⟨container | g | k, t⟩
  · rw [hwalk] at hstate hvalue
    obtain rfl : t = s := hstate
    rcases hvalue container rfl with ⟨passed, hpath⟩ | ⟨c, rfl⟩
    · refine setElement_fails (fun i hi => ?_) (fun spot hd => ?_) new
      · exact hobjects before passed i List.prefix_rfl (hi ▸ hpath)
      · exact hno passed container spot ⟨before, last, rfl, hpath, hd⟩
    · refine setElement_fails (fun i hi => ?_) (fun spot hd => ?_) new
      · cases hi
      · cases hd
  · rw [hwalk] at hstate
    exact ⟨hstate, nofun⟩
  · rw [hwalk] at hstate
    exact ⟨hstate, nofun⟩

end Exec

open Exec

/-- **An assignment to an element writes one cell, or nothing.**  Let keys meet no object on their way from a
value, and the maps on it be there.  A place that a key is taken for is one that the sequence has.  The
assignment gives a value if and only if the keys lead to a cell, of a container that is not being rendered.  It
is the value assigned then, and the heap is the one before but for this one cell; and the keys find the value
afterwards, if they do not lead through the container on their way.  An assignment that gives no value leaves
everything as it is. -/
theorem index_assignment_lawful {ev : Evaluator} {s : State} {base : Value} {keys : List Value} (new : Value)
    (hmaps : s.heap.Recorded) (hobjects : s.heap.Objectless base keys.dropLast)
    (hlive : ∀ before passed i, before <+: keys.dropLast → s.heap.Path base before passed (.map i) →
      i < s.heap.maps.size) :
    let o := (indexSet base keys new ev s).1
    let t := (indexSet base keys new ev s).2
    (∀ key size place, placeOf s.heap key size = .ok place → place < size) ∧
    ((∃ w, o = .value w) ↔
      ∃ passed container spot, s.heap.Finds base keys passed container spot ∧ container ∉ s.held) ∧
    (∀ passed container spot, s.heap.Finds base keys passed container spot → container ∉ s.held →
      o = .value new ∧ t = s.withHeap t.heap ∧ s.heap.Written spot new t.heap ∧
        ((∀ w ∈ passed, ¬ spot.In w) → indexGet base keys ev t = (.value new, t))) ∧
    ((∀ w, o ≠ .value w) → t = s) := by
  intro o t
  have hfound {passed : List Value} {container : Value} {spot : Spot}
      (hfinds : s.heap.Finds base keys passed container spot) (hheld : container ∉ s.held) :
      indexSet base keys new ev s = (.value new, s.withHeap (s.heap.put spot new)) :=
    indexSet_of_finds hobjects.not_object hfinds hheld
  have hlost (hno : ¬ ∃ passed container spot, s.heap.Finds base keys passed container spot ∧
      container ∉ s.held) : t = s ∧ ∀ w, o ≠ .value w :=
    indexSet_fails hobjects fun passed container spot hfinds =>
      by_contra fun hheld => hno ⟨passed, container, spot, hfinds, hheld⟩
  refine ⟨fun key size place hplace => (Heap.placeOf_eq_ok_iff.mp hplace).1, ⟨?_, ?_⟩, ?_, ?_⟩
  · rintro ⟨w, hw⟩
    by_contra hno
    exact (hlost hno).2 w hw
  · rintro ⟨passed, container, spot, hfinds, hheld⟩
    exact ⟨new, congrArg Prod.fst (hfound hfinds hheld)⟩
  · intro passed container spot hfinds hheld
    have hset := hfound hfinds hheld
    have ht : t = s.withHeap (s.heap.put spot new) := congrArg Prod.snd hset
    obtain ⟨before, last, rfl, hpath, hd⟩ := hfinds
    rw [List.dropLast_concat] at hlive
    have hw : s.heap.Written spot new (s.heap.put spot new) :=
      Heap.written_put hd hmaps (fun i hi => hlive before passed i List.prefix_rfl (hi ▸ hpath)) new
    rw [ht]
    refine ⟨congrArg Prod.fst hset, rfl, hw, fun hpassed => ?_⟩
    -- the way to the container is what it was, and the last key leads to the same spot
    have hback := (hw.path hpath hpassed).append (hw.designates hd) hw.content
    exact walk_of_path hback
  · intro hnone
    by_contra hne
    refine hne (hlost fun hfinds => ?_).1
    obtain ⟨passed, container, spot, hfinds, hheld⟩ := hfinds
    exact hnone new (congrArg Prod.fst (hfound hfinds hheld))

/-- A list in a map, with an array at its end. -/
def chainedHeap : Heap :=
  { Heap.empty with
    sequences := #[#[.null, .array 1], #[.int 5, .int 6, .list 0]]
    maps := #[.ofList [(.str "a", .list 0)]] }

/-- A string in a map, a negative number as a string, and a truth value as a place. -/
theorem index_assignment_lawful_chained :
    let s : State := ⟨chainedHeap, .empty, [], .blank 0 0 Host.bare⟩
    let keys : List Value := [.str "a", .str " -1", .bool true]
    let t := (indexSet (.map 0) keys (.str "x") (evaluator 5) s).2
    chainedHeap.Finds (.map 0) keys [.map 0, .list 0] (.array 1) (.place 1 1) ∧
      chainedHeap.Written (.place 1 1) (.str "x") t.heap ∧
      indexGet (.map 0) keys (evaluator 5) t = (.value (.str "x"), t) := by
  intro s keys t
  -- the first two keys lead past three containers, none of which is an object
  have hpaths : ∀ before passed w, before <+: keys.dropLast → chainedHeap.Path (.map 0) before passed w →
      w ∈ [Value.map 0, .list 0, .array 1] := by
    intro before passed w hbefore hpath
    have hwalk : Exec.walk false false (.map 0) before (evaluator 5) s = (.value w, s) := walk_of_path hpath
    have hinits : before ∈ [[], [.str "a"], [.str "a", .str " -1"]] := (List.mem_inits _ _).mpr hbefore
    simp only [List.mem_cons, List.not_mem_nil, or_false] at hinits
    rcases hinits with rfl | rfl | rfl
    · cases hwalk
      decide
    · cases hwalk
      decide
    · cases hwalk
      decide
  have hmaps : chainedHeap.Recorded := by
    intro i
    rcases i with _ | i
    · exact ⟨[.insert (.str "a") (.list 0)], rfl⟩
    · exact ⟨[], rfl⟩
  obtain ⟨-, -, hwrites, -⟩ := @index_assignment_lawful (evaluator 5) s (.map 0) keys (.str "x") hmaps
    (fun before passed i hbefore hpath => absurd (hpaths before passed _ hbefore hpath) (by simp))
    (fun before passed i hbefore hpath => by
      have hmem := hpaths before passed _ hbefore hpath
      simp only [List.mem_cons, Value.map.injEq, reduceCtorEq, List.not_mem_nil, or_false] at hmem
      subst hmem
      decide)
  have hfinds : chainedHeap.Finds (.map 0) keys [.map 0, .list 0] (.array 1) (.place 1 1) :=
    ⟨[.str "a", .str " -1"], .bool true, rfl,
      .cons .map rfl (.cons (.list ⟨by decide, -1, by decide, rfl⟩) rfl .nil),
      .array ⟨by decide, 1, rfl, rfl⟩⟩
  obtain ⟨-, -, hwritten, hback⟩ := hwrites _ _ _ hfinds List.not_mem_nil
  exact ⟨hfinds, hwritten, hback (by simp [Spot.In])⟩

end TreeScript
