import TreeScript.Heap.Identity
import TreeScript.Operation.Basic

/-
# Heaps that differ in their scopes only

What the operations of the language read from a heap, scopes aside, is little: the slots, the
sequences and the maps, the class of an instance, and how far a coroutine has come.  Two heaps that
agree on these are `Alike`.  Scopes, and the numbers of scopes that instances, callables and
coroutines hold, may differ.

Everything that runs no code of the program gives the same result on heaps that are alike: truth,
text, equality, conversion, arithmetic.  What such a computation makes, it makes in the stores of
slots, sequences and maps (`Stores`), the same on both sides.
-/

namespace TreeScript
namespace Heap

/-! ## Stores -/

/-- The storage in which values are made by computations that run no code of the program. -/
structure Stores where
  slots : Array Slot
  sequences : Array (Array Value)
  maps : Array OrderedMap

/-- The heap with other stores. -/
def withStores (h : Heap) (st : Stores) : Heap :=
  { h with slots := st.slots, sequences := st.sequences, maps := st.maps }

/-- The stores of a heap. -/
def stores (h : Heap) : Stores := ⟨h.slots, h.sequences, h.maps⟩

@[simp] theorem withStores_stores (h : Heap) : h.withStores h.stores = h := rfl

/-! ## Alike heaps -/

/-- Two heaps hold the same, scopes aside. -/
structure Alike (h h' : Heap) : Prop where
  slots : h.slots = h'.slots
  sequences : h.sequences = h'.sequences
  maps : h.maps = h'.maps
  classOf : ∀ i, h.classOf i = h'.classOf i
  /-- New storage gets the same number. -/
  objectCount : h.objects.size = h'.objects.size
  callableCount : h.callables.size = h'.callables.size
  coroutineCount : h.coroutines.size = h'.coroutines.size
  coroutineState : ∀ i, (h.coroutine i).state = (h'.coroutine i).state
  coroutineName : ∀ i, (h.coroutine i).name = (h'.coroutine i).name

namespace Alike

variable {h h' : Heap}

theorem refl (h : Heap) : Alike h h :=
  ⟨rfl, rfl, rfl, fun _ => rfl, rfl, rfl, rfl, fun _ => rfl, fun _ => rfl⟩

theorem withStores (A : Alike h h') (st : Stores) : Alike (h.withStores st) (h'.withStores st) :=
  ⟨rfl, rfl, rfl, A.classOf, A.objectCount, A.callableCount, A.coroutineCount, A.coroutineState,
    A.coroutineName⟩

theorem withScopes (A : Alike h h') (left right : Array Scope) :
    Alike { h with scopes := left } { h' with scopes := right } :=
  ⟨A.slots, A.sequences, A.maps, A.classOf, A.objectCount, A.callableCount, A.coroutineCount,
    A.coroutineState, A.coroutineName⟩

/-! ## Reading -/

theorem slot (A : Alike h h') (i : Nat) : h.slot i = h'.slot i := by
  rw [Heap.slot, Heap.slot, A.slots]

theorem valueAt (A : Alike h h') (i : Nat) : h.valueAt i = h'.valueAt i := by
  rw [Heap.valueAt, Heap.valueAt, A.slot]

theorem sequence (A : Alike h h') (i : Nat) : h.sequence i = h'.sequence i := by
  rw [Heap.sequence, Heap.sequence, A.sequences]

theorem mapAt (A : Alike h h') (i : Nat) : h.mapAt i = h'.mapAt i := by
  rw [Heap.mapAt, Heap.mapAt, A.maps]

theorem isFinished (A : Alike h h') (i : Nat) :
    (h.coroutine i).isFinished = (h'.coroutine i).isFinished := by
  rw [Coroutine.isFinished, Coroutine.isFinished, A.coroutineState]

theorem typeName (A : Alike h h') (v : Value) : h.typeName v = h'.typeName v := by
  cases v <;> simp only [Heap.typeName, A.classOf]

theorem isInstance (A : Alike h h') (cls : String) (v : Value) :
    h.isInstance cls v = h'.isInstance cls v := by
  cases v <;> simp only [Heap.isInstance, A.classOf, A.objectCount]

theorem truthy? (A : Alike h h') (v : Value) : h.truthy? v = h'.truthy? v := by
  cases v <;> simp only [Heap.truthy?, A.sequence, A.mapAt, A.isFinished]

theorem truthy (A : Alike h h') (v : Value) : h.truthy v = h'.truthy v := by
  rw [Heap.truthy, Heap.truthy, A.truthy?]

theorem follow (A : Alike h h') (n : Nat) (v : Value) : h.follow n v = h'.follow n v := by
  induction n generalizing v with
  | zero => cases v <;> rfl
  | succ n ih => cases v <;> simp only [Heap.follow, A.valueAt, ih]

theorem identity (A : Alike h h') (v : Value) : h.identity v = h'.identity v := by
  rw [Heap.identity, Heap.identity, A.follow]

/-! ## Texts -/

theorem shape (A : Alike h h') (v : Value) (nested : Bool) : h.shape v nested = h'.shape v nested := by
  cases v <;> simp only [Heap.shape, A.sequence, A.mapAt, A.valueAt]

theorem objectLabel (A : Alike h h') (i : Nat) : h.objectLabel i = h'.objectLabel i := by
  rw [Heap.objectLabel, Heap.objectLabel, A.classOf]

theorem renderTo (A : Alike h h') (depth : Nat) (v : Value) (nested : Bool) :
    h.renderTo depth v nested = h'.renderTo depth v nested := by
  induction depth generalizing v nested with
  | zero => rfl
  | succ depth ih =>
    have hrender : h.renderTo depth = h'.renderTo depth := by
      funext v nested
      exact ih v nested
    simp only [Heap.renderTo, A.shape, A.objectLabel, hrender]

theorem render (A : Alike h h') (v : Value) : h.render v = h'.render v := by
  have hbound : h.depthBound = h'.depthBound := by
    simp only [depthBound, A.sequences, A.maps, A.slots]
  rw [Heap.render, Heap.render, A.renderTo, hbound]

/-! ## Equality and operators -/

theorem equalTo (A : Alike h h') (depth : Nat) (v w : Value) :
    h.equalTo depth v w = h'.equalTo depth v w := by
  induction depth generalizing v w with
  | zero => rfl
  | succ depth ih =>
    have hequal : h.equalTo depth = h'.equalTo depth := by
      funext v w
      exact ih v w
    simp only [Heap.equalTo, A.sequence, A.mapAt, hequal]

theorem structurallyEqual (A : Alike h h') (v w : Value) :
    h.structurallyEqual v w = h'.structurallyEqual v w := by
  have hbound : h.pairBound = h'.pairBound := by
    simp only [pairBound, A.sequences, A.maps]
  rw [Heap.structurallyEqual, Heap.structurallyEqual, A.equalTo, hbound]

theorem operands (A : Alike h h') (rank : Rank) (l r : Value) :
    h.operands rank l r = h'.operands rank l r := by
  simp only [Heap.operands, A.truthy]

theorem valuesEqual (A : Alike h h') (l r : Value) : h.valuesEqual l r = h'.valuesEqual l r := by
  unfold Heap.valuesEqual
  simp only [A.render, A.structurallyEqual, A.operands]

theorem arithmetic (A : Alike h h') (op : BinaryOp) (l r : Value) :
    h.arithmetic op l r = h'.arithmetic op l r := by
  simp only [Heap.arithmetic, A.operands, binaryFailure, A.typeName]

theorem binary (A : Alike h h') (op : BinaryOp) (l r : Value) :
    h.binary op l r = h'.binary op l r := by
  unfold Heap.binary
  simp only [A.valuesEqual, A.truthy?, A.arithmetic, binaryFailure, A.typeName]

theorem evaluateUnary (A : Alike h h') (op : UnaryOp) (v : Value) :
    h.evaluateUnary op v = h'.evaluateUnary op v := by
  unfold Heap.evaluateUnary
  simp only [A.truthy?, A.typeName]

/-! ## Making and writing in the stores -/

theorem stores_eq (A : Alike h h') : h.stores = h'.stores := by
  rw [stores, stores, A.slots, A.sequences, A.maps]

end Alike

/-- Stores with all slots of a heap and at most one more, which is untyped. -/
def Grows (h : Heap) (st : Stores) : Prop :=
  st.slots = h.slots ∨ ∃ v, st.slots = h.slots.push ⟨.any, v, true⟩

/-- A computation makes something in the stores alone, and the same in heaps that are alike. -/
def Makes {α : Type} (f : Heap → α × Heap) : Prop :=
  ∀ ⦃h h'⦄, Alike h h' →
    ∃ a st, h.Grows st ∧ f h = (a, h.withStores st) ∧ f h' = (a, h'.withStores st)

/-- A computation writes to sequences and maps alone, and the same to heaps that are alike. -/
def Writes (f : Heap → Heap) : Prop :=
  ∀ ⦃h h'⦄, Alike h h' → ∃ st, h.Grows st ∧ f h = h.withStores st ∧ f h' = h'.withStores st

/-- A computation that can fail makes something in the stores alone, and the same in heaps that are
alike. -/
def MakesChecked {α : Type} (f : Heap → Checked (α × Heap)) : Prop :=
  ∀ ⦃h h'⦄, Alike h h' →
    (∃ e, f h = .error e ∧ f h' = .error e) ∨
      ∃ a st, h.Grows st ∧ f h = .ok (a, h.withStores st) ∧ f h' = .ok (a, h'.withStores st)

/-- Giving a value makes nothing. -/
theorem makes_const {α : Type} (a : α) : Makes fun h => (a, h) := by
  intro h h' A
  refine ⟨a, h.stores, Or.inl rfl, rfl, ?_⟩
  rw [A.stores_eq, withStores_stores]

/-- An untyped slot is made. -/
theorem makes_newSlot (v : Value) : Makes fun h => h.newSlot ⟨.any, v, true⟩ := by
  intro h h' A
  refine ⟨h.slots.size, { h.stores with slots := h.slots.push ⟨.any, v, true⟩ }, Or.inr ⟨v, rfl⟩,
    rfl, ?_⟩
  rw [A.stores_eq, A.slots]
  rfl

theorem makes_newSequence {f : Heap → Array Value} (hf : ∀ ⦃h h'⦄, Alike h h' → f h = f h') :
    Makes fun h => h.newSequence (f h) := by
  intro h h' A
  refine ⟨h.sequences.size, { h.stores with sequences := h.sequences.push (f h) }, Or.inl rfl, rfl, ?_⟩
  rw [A.stores_eq, A.sequences, hf A]
  rfl

theorem makes_newMap {f : Heap → OrderedMap} (hf : ∀ ⦃h h'⦄, Alike h h' → f h = f h') :
    Makes fun h => h.newMap (f h) := by
  intro h h' A
  refine ⟨.map h.maps.size, { h.stores with maps := h.maps.push (f h) }, Or.inl rfl, rfl, ?_⟩
  rw [A.stores_eq, A.maps, hf A]
  rfl

/-- What is made may be handed on in another form. -/
theorem Makes.map {α β : Type} {f : Heap → α × Heap} (hf : Makes f) (g : α → β) :
    Makes fun h => (g (f h).1, (f h).2) := by
  intro h h' A
  obtain ⟨a, st, hst, he, he'⟩ := hf A
  exact ⟨g a, st, hst, congrArg (fun r => (g r.1, r.2)) he, congrArg (fun r => (g r.1, r.2)) he'⟩

theorem makes_newList (items : List Value) : Makes fun h => h.newList items :=
  (makes_newSequence (f := fun _ => items.toArray) fun _ _ _ => rfl).map Value.list

theorem makes_defaultValue (ty : TypeKind) : Makes fun h => h.defaultValue ty := by
  cases ty with
  | list => exact makes_newList []
  | map => exact makes_newMap (f := fun _ => .empty) fun _ _ _ => rfl
  | array => exact (makes_newSequence (f := fun _ => #[]) fun _ _ _ => rfl).map Value.array
  | ref => exact (makes_newSlot .null).map Value.ref
  | _ => exact makes_const _

/-- A slot is written alike. -/
theorem Alike.setValue {h h' : Heap} (A : Alike h h') (i : Nat) (v : Value) :
    Alike (h.setValue i v) (h'.setValue i v) := by
  have hstores : h'.setValue i v = h'.withStores (h.setValue i v).stores := by
    simp only [Heap.setValue, stores, A.slots, A.sequences, A.maps]
    rfl
  rw [hstores]
  exact A.withStores (h.setValue i v).stores

/-- A slot is made alike. -/
theorem Alike.newSlot {h h' : Heap} (A : Alike h h') (s : Slot) :
    Alike (h.newSlot s).2 (h'.newSlot s).2 := by
  have hstores : (h'.newSlot s).2 = h'.withStores (h.newSlot s).2.stores := by
    simp only [Heap.newSlot, stores, A.slots, A.sequences, A.maps]
    rfl
  rw [hstores]
  exact A.withStores (h.newSlot s).2.stores

theorem writes_setElement (i place : Nat) (v : Value) : Writes fun h => h.setElement i place v := by
  intro h h' A
  refine ⟨(h.setElement i place v).stores, Or.inl rfl, rfl, ?_⟩
  simp only [setElement, stores, A.slots, A.sequences, A.maps]
  rfl

theorem writes_setEntry (i : Nat) (k v : Value) : Writes fun h => h.setEntry i k v := by
  intro h h' A
  refine ⟨(h.setEntry i k v).stores, Or.inl rfl, rfl, ?_⟩
  simp only [setEntry, stores, A.slots, A.sequences, A.maps]
  rfl

/-! ### Conversion -/

/-- A computation that makes something and does not fail. -/
theorem Makes.checked {α : Type} {f : Heap → α × Heap} (hf : Makes f) :
    MakesChecked fun h => .ok (f h) := by
  intro h h' A
  obtain ⟨a, st, hst, he, he'⟩ := hf A
  exact Or.inr ⟨a, st, hst, congrArg _ he, congrArg _ he'⟩

/-- A computation whose result hangs on a reading that can fail. -/
theorem makesChecked_read {α β : Type} {f : Heap → Checked α} (g : α → β)
    (hf : ∀ ⦃h h'⦄, Alike h h' → f h = f h') :
    MakesChecked fun h => do return (g (← f h), h) := by
  intro h h' A
  dsimp only
  rw [hf A]
  cases f h' with
  | error e => exact Or.inl ⟨e, rfl, rfl⟩
  | ok a => exact (makes_const (g a)).checked A

/-- A conversion that keeps the value or fails. -/
theorem makesChecked_keep {α : Type} (ok : Bool) (v : α) (e : Fault) :
    MakesChecked fun h => if ok then .ok (v, h) else .error e := by
  cases ok with
  | true => exact (makes_const v).checked
  | false => exact fun _ _ _ => Or.inl ⟨e, rfl, rfl⟩

theorem makesChecked_cast (v : Value) (ty : TypeKind) : MakesChecked fun h => h.cast v ty := by
  unfold Heap.cast
  by_cases hnull : v.isNull
  · simp only [hnull, if_true]
    exact (makes_const v).checked
  rw [Bool.not_eq_true] at hnull
  simp only [hnull, Bool.false_eq_true, if_false]
  cases ty with
  | any | void => exact (makes_const v).checked
  | byte | short | char | int | long | float | double =>
    dsimp only
    cases toNumber v _ with
    | ok w => exact (makes_const w).checked
    | error e => exact fun _ _ _ => Or.inl ⟨_, rfl, rfl⟩
  | bool =>
    intro h h' A
    simp only [A.truthy]
    exact (makes_const _).checked A
  | string =>
    cases v with
    | str s => exact (makes_const _).checked
    | _ => exact makesChecked_read Value.str fun _ _ A => A.render _
  | list =>
    cases v with
    | array i => exact ((makes_newSequence fun _ _ A => A.sequence i).map Value.list).checked
    | list i => exact (makes_const _).checked
    | _ => exact fun _ _ _ => Or.inl ⟨_, rfl, rfl⟩
  | array =>
    cases v with
    | list i => exact ((makes_newSequence fun _ _ A => A.sequence i).map Value.array).checked
    | array i => exact (makes_const _).checked
    | _ => exact fun _ _ _ => Or.inl ⟨_, rfl, rfl⟩
  | ref =>
    cases v with
    | ref i => exact (makes_const _).checked
    | _ => exact ((makes_newSlot _).map Value.ref).checked
  | map | coroutine | consumer | object _ => exact makesChecked_keep _ _ _

end Heap
end TreeScript
