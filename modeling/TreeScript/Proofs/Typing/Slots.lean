import TreeScript.Proofs.Sessions
import TreeScript.Proofs.Simulation.Moments
import TreeScript.Proofs.Storage

/-
# Typed slots stay typed

A heap is `Typed` if every slot holds a value that suits its declared type.  A heap is `Prior` to
another if nothing of it has been lost there: slots keep their types, immutable ones also keep their
values, and instances keep their classes.

Each operation on the heap leads from a typed heap to a typed one to which it is prior.  A slot that is
written to is known with its type (`Invariant.typed`), and so is what suits a type, which is what the
conversions give.  So at every moment of a history the heap is typed, and prior to the one at the end.
-/

namespace TreeScript

open Exec

/-! ## Typed heaps -/

namespace Heap

/-- A slot holds a value of its type. -/
def Suited (h : Heap) (s : Slot) : Prop := h.suits s.type s.value = true

/-- A scope binds names to slots that there are. -/
def Bound (h : Heap) (s : Scope) : Prop :=
  ∀ x i, s.bindings.find? x = some i → i < h.slots.size

/-- The arguments of a coroutine suit its parameters, so that it may be started again. -/
def ArgsSuit (h : Heap) (c : Coroutine) : Prop :=
  ∀ p ∈ c.params.zip c.args, h.suits p.1.type p.2 = true

/-- Everything is of the type with which it is declared. -/
structure Typed (h : Heap) : Prop where
  slots : ∀ i, h.Suited (h.slot i)
  bound : ∀ c, h.Bound (h.scope c)
  args : ∀ i, h.ArgsSuit (h.coroutine i)

/-- The second heap is the first one later on: no slot changes its type, no immutable slot changes its
value, and no instance its class. -/
structure Prior (h h' : Heap) : Prop where
  slotCount : h.slots.size ≤ h'.slots.size
  type : ∀ i < h.slots.size, (h'.slot i).type = (h.slot i).type
  isMutable : ∀ i < h.slots.size, (h'.slot i).isMutable = (h.slot i).isMutable
  value : ∀ i < h.slots.size, (h.slot i).isMutable = false → h'.valueAt i = h.valueAt i
  objectCount : h.objects.size ≤ h'.objects.size
  classOf : ∀ i < h.objects.size, h'.classOf i = h.classOf i

variable {h h' h'' : Heap} {ty : TypeKind} {v : Value}

theorem Prior.of_eq (hslots : h'.slots = h.slots) (hobjects : h'.objects = h.objects) :
    h.Prior h' where
  slotCount := Nat.le_of_eq (congrArg Array.size hslots.symm)
  type i _ := by rw [slot, slot, hslots]
  isMutable i _ := by rw [slot, slot, hslots]
  value i _ _ := by rw [valueAt, valueAt, slot, slot, hslots]
  objectCount := Nat.le_of_eq (congrArg Array.size hobjects.symm)
  classOf i _ := by rw [Heap.classOf, Heap.classOf, object, object, hobjects]

theorem Prior.refl (h : Heap) : h.Prior h := .of_eq rfl rfl

theorem Prior.trans (h₁ : h.Prior h') (h₂ : h'.Prior h'') : h.Prior h'' where
  slotCount := Nat.le_trans h₁.slotCount h₂.slotCount
  type i hi := (h₂.type i (Nat.lt_of_lt_of_le hi h₁.slotCount)).trans (h₁.type i hi)
  isMutable i hi := (h₂.isMutable i (Nat.lt_of_lt_of_le hi h₁.slotCount)).trans (h₁.isMutable i hi)
  value i hi hconst := by
    have hconst' := (h₁.isMutable i hi).trans hconst
    exact (h₂.value i (Nat.lt_of_lt_of_le hi h₁.slotCount) hconst').trans (h₁.value i hi hconst)
  objectCount := Nat.le_trans h₁.objectCount h₂.objectCount
  classOf i hi := (h₂.classOf i (Nat.lt_of_lt_of_le hi h₁.objectCount)).trans (h₁.classOf i hi)

/-- What suits a type goes on suiting it. -/
theorem Prior.suits (hp : h.Prior h') (hv : h.suits ty v = true) : h'.suits ty v = true := by
  cases ty with
  | object cls =>
    cases v with
    | object i =>
      obtain ⟨hi, hcls⟩ : i < h.objects.size ∧ (h.classOf i).extendsName cls = true := by
        simpa [Heap.suits, isInstance] using hv
      have hi' := Nat.lt_of_lt_of_le hi hp.objectCount
      simpa [Heap.suits, isInstance, hi', hp.classOf i hi] using hcls
    | null => rfl
    | _ => cases hv
  | _ => cases v <;> first | rfl | cases hv

/-! ## Operations -/

/-- What was of its type before a change is so after it. -/
theorem Typed.of_prior (hp : h.Prior h') (hslots : ∀ i, h.Suited (h'.slot i))
    (hbound : ∀ c, h'.Bound (h'.scope c)) (hargs : ∀ i, h.ArgsSuit (h'.coroutine i)) : h'.Typed :=
  ⟨fun i => hp.suits (hslots i), hbound, fun i p hmem => hp.suits (hargs i p hmem)⟩

theorem prior_newSlot (h : Heap) (s : Slot) : h.Prior (h.newSlot s).2 := by
  have hslot : ∀ i < h.slots.size, (h.newSlot s).2.slot i = h.slot i := fun i hi =>
    getD_push_lt h.slots s hi
  have hcount : h.slots.size ≤ (h.slots.push s).size := by
    rw [Array.size_push]
    exact Nat.le_succ _
  exact ⟨hcount, fun i hi => by rw [hslot i hi], fun i hi => by rw [hslot i hi],
    fun i hi _ => by rw [valueAt, valueAt, hslot i hi], Nat.le_refl _, fun _ _ => rfl⟩

theorem Typed.newSlot (ht : h.Typed) {s : Slot} (hs : h.Suited s) : (h.newSlot s).2.Typed := by
  have hp := prior_newSlot h s
  refine .of_prior hp (forall_push (P := h.Suited) ht.slots hs) (fun c x i hi => ?_) ht.args
  exact Nat.lt_of_lt_of_le (ht.bound c x i hi) hp.slotCount

/-- A mutable slot is written to. -/
theorem prior_setValue {i : Nat} (hi : (h.slot i).isMutable = true) (v : Value) :
    h.Prior (h.setValue i v) := by
  have hslot : ∀ j, (h.setValue i v).slot j = h.slot j ∨
      j = i ∧ (h.setValue i v).slot j = { h.slot j with value := v } := by
    intro j
    simp only [slot, setValue, getD_modify]
    split
    · rename_i hj
      exact Or.inr ⟨hj.1.symm, rfl⟩
    · exact Or.inl rfl
  refine ⟨Nat.le_of_eq Array.size_modify.symm, fun j _ => ?_, fun j _ => ?_, fun j _ hconst => ?_,
    Nat.le_refl _, fun _ _ => rfl⟩
  · rcases hslot j with hj | ⟨_, hj⟩ <;> rw [hj]
  · rcases hslot j with hj | ⟨_, hj⟩ <;> rw [hj]
  · rcases hslot j with hj | ⟨rfl, _⟩
    · rw [valueAt, valueAt, hj]
    · cases hi.symm.trans hconst

theorem Typed.setValue (ht : h.Typed) {i : Nat} (hi : (h.slot i).isMutable = true)
    (hv : h.suits (h.slot i).type v = true) : (h.setValue i v).Typed := by
  refine .of_prior (prior_setValue hi v) (fun j => ?_) (fun c x j hj => ?_) ht.args
  · simp only [slot, Heap.setValue, getD_modify]
    split
    · rename_i hj
      rw [← hj.1]
      exact hv
    · exact ht.slots j
  · have hj' := ht.bound c x j hj
    rwa [← Array.size_modify] at hj'

/-- The scopes change, and bind names to slots that there are. -/
theorem Typed.withScopes (ht : h.Typed) {scopes : Array Scope}
    (hbound : ∀ c, h.Bound (scopes.getD c default)) : ({ h with scopes := scopes } : Heap).Typed :=
  .of_prior (.of_eq rfl rfl) ht.slots hbound ht.args

theorem Typed.addScope (ht : h.Typed) (around : List Nat) :
    ({ h with scopes := h.scopes.push ⟨.empty, around⟩ } : Heap).Typed :=
  ht.withScopes (forall_push (P := h.Bound) ht.bound fun _ _ hi => by cases hi)

theorem Typed.clear (ht : h.Typed) (c : Nat) : (h.clear c).Typed :=
  ht.withScopes (forall_modify (P := h.Bound) ht.bound fun _ _ _ _ hi => by cases hi)

theorem Typed.bind (ht : h.Typed) (c : Nat) (x : String) {i : Nat} (hi : i < h.slots.size) :
    (h.bind c x i).Typed := by
  refine ht.withScopes (forall_modify (P := h.Bound) ht.bound fun s hs y j hj => ?_)
  rw [Table.find?_insert] at hj
  split at hj
  · cases hj
    exact hi
  · exact hs y j hj

theorem prior_declareSlot (h : Heap) (c : Nat) (x : String) (s : Slot) :
    h.Prior (h.declareSlot c x s) :=
  (prior_newSlot h s).trans (.of_eq rfl rfl)

theorem Typed.declareSlot (ht : h.Typed) (c : Nat) (x : String) {s : Slot} (hs : h.Suited s) :
    (h.declareSlot c x s).Typed := by
  refine (ht.newSlot hs).bind c x ?_
  show h.slots.size < (h.slots.push s).size
  rw [Array.size_push]
  exact Nat.lt_succ_self _

theorem prior_unbind (h : Heap) (c : Nat) (x : String) : h.Prior (h.unbind c x).2 := by
  unfold unbind
  split
  · exact .of_eq rfl rfl
  · exact .refl h

theorem Typed.unbind (ht : h.Typed) (c : Nat) (x : String) : (h.unbind c x).2.Typed := by
  unfold Heap.unbind
  split
  · refine ht.withScopes (forall_modify (P := h.Bound) ht.bound fun s hs y j hj => ?_)
    rw [Table.find?_erase] at hj
    split at hj
    · cases hj
    · exact hs y j hj
  · exact ht

theorem prior_addObject (h : Heap) (o : Instance) :
    h.Prior { h with objects := h.objects.push o } := by
  have hcount : h.objects.size ≤ (h.objects.push o).size := by
    rw [Array.size_push]
    exact Nat.le_succ _
  refine ⟨Nat.le_refl _, fun _ _ => rfl, fun _ _ => rfl, fun _ _ _ => rfl, hcount, fun i hi => ?_⟩
  exact congrArg Instance.cls (getD_push_lt h.objects o hi)

theorem Typed.addObject (ht : h.Typed) (o : Instance) :
    ({ h with objects := h.objects.push o } : Heap).Typed :=
  .of_prior (prior_addObject h o) ht.slots ht.bound ht.args

theorem Typed.addCallable (ht : h.Typed) (k : Callable) : (h.newCallable k).2.Typed :=
  .of_prior (.of_eq rfl rfl) ht.slots ht.bound ht.args

theorem Typed.addCoroutine (ht : h.Typed) {c : Coroutine} (hc : h.ArgsSuit c) :
    ({ h with coroutines := h.coroutines.push c } : Heap).Typed :=
  .of_prior (.of_eq rfl rfl) ht.slots ht.bound (forall_push (P := h.ArgsSuit) ht.args hc)

/-- A coroutine goes on with the same arguments. -/
theorem Typed.setCoroutine (ht : h.Typed) {i : Nat} {c : Coroutine}
    (hparams : c.params = (h.coroutine i).params) (hargs : c.args = (h.coroutine i).args) :
    (h.setCoroutine i c).Typed := by
  refine .of_prior (.of_eq rfl rfl) ht.slots ht.bound (forall_set (P := h.ArgsSuit) ht.args ?_)
  rw [ArgsSuit, hparams, hargs]
  exact ht.args i

/-- Sequences and maps change, and an untyped slot may be made. -/
theorem Typed.withStores (ht : h.Typed) {st : Stores} (hst : h.Grows st) :
    h.Prior (h.withStores st) ∧ (h.withStores st).Typed := by
  obtain ⟨slots, sequences, maps⟩ := st
  rcases hst with rfl | ⟨v, rfl⟩
  · exact ⟨.of_eq rfl rfl, .of_prior (.of_eq rfl rfl) ht.slots ht.bound ht.args⟩
  · have hnew : (h.newSlot ⟨.any, v, true⟩).2.Typed := ht.newSlot (suits_of_isUntyped rfl v)
    refine ⟨(prior_newSlot h ⟨.any, v, true⟩).trans (.of_eq rfl rfl), ?_⟩
    exact .of_prior (.of_eq rfl rfl) hnew.slots hnew.bound hnew.args

theorem typed_empty : Heap.empty.Typed where
  slots _ := rfl
  bound _ _ _ h := by cases h
  args _ _ h := by cases h

end Heap

/-! ## Types as an invariant -/

/-- The heap is typed, and what it was is known.  A world from which the heap at the end cannot come is
marked. -/
def Invariant.slots (final : Heap) : Invariant where
  World := Heap
  le := Heap.Prior
  holds w s := w.Prior s.heap ∧ s.heap.Typed
  way _ _ := True
  fits _ _ := True
  enters _ _ := True
  suits w ty v := w.suits ty v = true
  typed w i ty := i < w.slots.size ∧ (w.slot i).type = ty
  writable w i := (w.slot i).isMutable = true
  marked w := ¬ w.Prior final

namespace Invariant

variable {final : Heap}

/-- A later heap is typed. -/
theorem slots_holds {w : Heap} {s t : State} (hs : (Invariant.slots final).holds w s)
    (hp : s.heap.Prior t.heap) (ht : t.heap.Typed) : (Invariant.slots final).holds w t :=
  ⟨hs.1.trans hp, ht⟩

theorem slots_types : (Invariant.slots final).Types where
  suits_mono hle hv := Heap.Prior.suits hle hv
  typed_mono hle hi := ⟨Nat.lt_of_lt_of_le hi.1 hle.slotCount, (hle.type _ hi.1).trans hi.2⟩
  learn {w s} hs := by
    have hlook : ∀ {c x i}, s.heap.lookupLocal c x = some i →
        ∃ ty, (Invariant.slots final).typed s.heap i ty :=
      fun {c x i} hi => ⟨(s.heap.slot i).type, hs.2.bound c x i hi, rfl⟩
    refine ⟨s.heap, hs.1, ⟨.refl _, hs.2⟩, fun hv => hv, fun {c x i} hi => ?_, hlook, hs.2.args⟩
    obtain ⟨a, _, ha⟩ := List.exists_of_findSome?_eq_some hi
    exact hlook ha
  suits_any w v := Heap.suits_of_isUntyped rfl v
  suits_this {w s cls i} hs hi := by
    obtain ⟨hlt, _⟩ : i < w.objects.size ∧ (w.classOf i).extendsName cls = true := by
      simpa [Invariant.slots, Heap.suits, Heap.isInstance] using hi
    show w.suits (.object (s.heap.classOf i).name) (.object i) = true
    rw [hs.1.classOf i hlt]
    exact Heap.suits_instance hlt
  typed_slot hs hi := ⟨hi.1, (hs.1.type _ hi.1).symm⟩
  writable_slot hs hi hmutable := (hs.1.isMutable _ hi.1).symm.trans hmutable

theorem slots_operations : (Invariant.slots final).Operations where
  withStores hs hst := slots_holds hs (hs.2.withStores hst).1 (hs.2.withStores hst).2
  setValue {w s i ty v} hs hi hmutable hv := by
    have hmutable' : (s.heap.slot i).isMutable = true := (hs.1.isMutable i hi.1).trans hmutable
    have hv' : s.heap.suits (s.heap.slot i).type v = true := by
      rw [hs.1.type i hi.1, hi.2]
      exact hs.1.suits hv
    exact slots_holds hs (Heap.prior_setValue hmutable' v) (hs.2.setValue hmutable' hv')
  withHeld _ hs := hs
  newScope _ hs := slots_holds hs (.of_eq rfl rfl) (hs.2.addScope _)
  declareSlot c x _ hs hv :=
    slots_holds hs (Heap.prior_declareSlot _ c x _) (hs.2.declareSlot c x (hs.1.suits hv))
  unbind c x hs := slots_holds hs (Heap.prior_unbind _ c x) (hs.2.unbind c x)
  retain {w s} hs := ⟨w, .refl w, hs⟩
  release {w s} hs := ⟨w, .refl w, hs⟩
  addObject o hs := slots_holds hs (Heap.prior_addObject _ o) (hs.2.addObject o)
  callable _ _ _ := fun _ _ _ _ => trivial
  addCallable hs _ := slots_holds hs (.of_eq rfl rfl) (hs.2.addCallable _)
  addCoroutine c hs _ _ hargs :=
    slots_holds hs (.of_eq rfl rfl) (hs.2.addCoroutine fun p hp => hs.1.suits (hargs p hp))
  allows _ _ _ := fun _ _ _ _ => trivial
  addFunction hs _ := hs
  withClasses _ hs := hs
  reserve _ hs := hs
  remember _ _ hs _ := hs
  parsed _ _ _ _ _ := trivial
  withMeter _ hs := hs
  withOutput _ hs := hs
  withCancellation _ hs := hs
  nextFrame {w _ _ _} hs _ _ := ⟨w, .refl w, hs⟩
  forget {w _} hs _ := ⟨w, .refl w, hs⟩
  way_yield _ := trivial
  way_cons _ _ _ := trivial

/-- What leaves the heap as it is keeps it typed. -/
theorem slots_returns {w : Heap} {back : State → State} (hback : ∀ t, (back t).heap = t.heap) :
    (Invariant.slots final).Passes w w back := by
  intro w₂ t hle ht
  refine ⟨w₂, hle, ?_, id, fun _ h => h⟩
  show w₂.Prior (back t).heap ∧ (back t).heap.Typed
  rw [hback]
  exact ht

theorem slots_boundaries : (Invariant.slots final).Boundaries where
  call {w s name calls} hs _ :=
    ⟨w, ⟨fun h => h, fun h => h, fun h => h⟩, ⟨hs, id⟩, slots_returns fun _ => rfl⟩
  barrier {w s} hs :=
    ⟨w, trivial, ⟨hs, id⟩, (slots_returns fun _ => rfl).returns⟩
  callScope {w s function c t} hs _ hacquire := by
    obtain ⟨pool, m, heap, rfl, hheap⟩ :=
      acquireScope_state (hacquire (.untraced 0 fun _ _ s => (.halted .outOfFuel, s)))
    refine ⟨w, trivial, ⟨?_, id⟩, (slots_returns fun _ => rfl).returns⟩
    rcases hheap with rfl | rfl
    · exact slots_holds hs (.of_eq rfl rfl) (hs.2.addScope _)
    · exact slots_holds hs (.of_eq rfl rfl) (hs.2.clear c)
  aside {w s} hs _ := ⟨w, fun _ h => h, ⟨hs, id⟩, slots_returns fun _ => rfl⟩
  resumed {w s i frames running} hs hbegin := by
    obtain ⟨rfl, rfl⟩ := Coroutine.begin?_eq_some hbegin
    refine ⟨w, trivial, ⟨slots_holds hs (.of_eq rfl rfl) (hs.2.setCoroutine rfl rfl), id⟩,
      fun w₂ t hle ht => ?_, fun w₂ t fs hle ht _ => ?_⟩
    · exact ⟨w₂, hle, slots_holds ht (.of_eq rfl rfl) (ht.2.setCoroutine rfl rfl), id⟩
    · exact ⟨w₂, hle, slots_holds ht (.of_eq rfl rfl) (ht.2.setCoroutine rfl rfl), id⟩

/-- **Evaluations keep the heap typed.** -/
theorem slots_upheld (final : Heap) : (Invariant.slots final).Upheld where
  le_refl := Heap.Prior.refl
  le_trans := Heap.Prior.trans
  way_mono _ _ := trivial
  fits_mono _ _ := trivial
  marked_mono hle hmarked h := hmarked (hle.trans h)
  fits_part _ _ := trivial
  enters_fits _ _ := trivial
  toTypes := slots_types
  toOperations := slots_operations
  toBoundaries := slots_boundaries

end Invariant

/-! ## Moments -/

/-- An alarm that is silent in typed heaps which a heap can have come from. -/
def Heap.Silences (last : Heap) (alarm : Heap → Bool) : Prop :=
  ∀ h : Heap, h.Typed → h.Prior last → alarm h = false

/-- The evaluator whose watch prints where an alarm goes off. -/
def alarmed (alarm : Heap → Bool) (mark : Output → Output) (fuel : Nat) : Evaluator :=
  observed (fun s => alarm s.heap) (printing mark) fuel

/-- A run that begins with a heap ends with a typed heap to which that is prior, and no alarm is noticed
that is silent in typed heaps prior to the last. -/
structure StaysTyped {β : Type} (heapOf : β → Heap) (h : Heap) (plain : β)
    (watched : (Heap → Bool) → (Output → Output) → β) : Prop where
  prior : h.Prior (heapOf plain)
  typed : (heapOf plain).Typed
  same : ∀ {last alarm} (mark), (heapOf plain).Prior last → last.Silences alarm →
    watched alarm mark = plain

/-- Top-level evaluations stay typed. -/
theorem Exec.staysTyped {x : Exec Value} (hx : Simulation.Fair x) (fuel : Nat) {s : State}
    (hs : s.heap.Typed) :
    StaysTyped (·.2.heap) s.heap (x (evaluator fuel) s) fun alarm mark =>
      x (alarmed alarm mark fuel) s := by
  -- what agrees with the evaluator ends in a typed heap, and in the same state if it is not marked
  have hagrees : ∀ last ev', (Invariant.slots last).toSimulation.Ready (evaluator fuel) ev' →
      (x (evaluator fuel) s).1 = (x ev' s).1 ∧ s.heap.Prior (x (evaluator fuel) s).2.heap ∧
        (x (evaluator fuel) s).2.heap.Typed ∧
        ((x (evaluator fuel) s).2.heap.Prior last → (x (evaluator fuel) s).2 = (x ev' s).2) := by
    intro last ev' R
    have hends := hx _ (Invariant.slots_upheld last).lawful R (w := s.heap) trivial
      (fun _ => trivial) s s (Invariant.rel_self ⟨.refl _, hs⟩)
    rcases Invariant.of_ends hends with ⟨hlax, _⟩ | ⟨houtcome, w, hle, ⟨⟨hprior, ht⟩, hbeside⟩, _⟩
    · exact hlax.elim
    · exact ⟨houtcome, Heap.Prior.trans hle hprior, ht,
        fun hlast => hbeside.eq fun hmarked => hmarked (hprior.trans hlast)⟩
  obtain ⟨_, hprior, ht, _⟩ := hagrees s.heap _ ((Invariant.slots_upheld _).ready fuel)
  refine ⟨hprior, ht, fun {last alarm} mark hlast halarm => ?_⟩
  have R : (Invariant.slots last).toSimulation.Ready (evaluator fuel) (alarmed alarm mark fuel) := by
    refine Invariant.ready_printing (Invariant.slots_upheld last) (fun w t ht hring => ?_) mark fuel
    refine ⟨t.heap, ht.1, ⟨.refl _, ht.2⟩, fun hprior => ?_⟩
    cases (halarm t.heap ht.2 hprior).symm.trans hring
  obtain ⟨houtcome, _, _, hstate⟩ := hagrees last _ R
  exact (Prod.ext houtcome (hstate hlast)).symm

/-! ## Histories -/

namespace Host

variable {host : Host}

theorem staysTyped_run {x : Exec Value} (hx : Simulation.Fair x) (k fuel : Nat)
    (hs : host.heap.Typed) :
    StaysTyped (·.2.heap) host.heap (host.runWith k (evaluator fuel) x) fun alarm mark =>
      host.runWith k (alarmed alarm mark fuel) x := by
  unfold runWith
  cases host.sessions[k]? with
  | none => exact ⟨.refl _, hs, fun _ _ _ => rfl⟩
  | some session =>
    have hrun := staysTyped hx fuel (s := ⟨host.heap, host.sites, [], session⟩) hs
    refine ⟨hrun.prior, hrun.typed, fun {last alarm} mark hlast halarm => ?_⟩
    dsimp only
    rw [hrun.same mark hlast halarm]

/-- Every request leaves the heap typed. -/
theorem staysTyped_answer (fuel : Nat → Nat) (r : Request) (hs : host.heap.Typed) :
    StaysTyped (·.2.heap) host.heap (host.answer (fun k => evaluator (fuel k)) r) fun alarm mark =>
      host.answer (fun k => alarmed alarm mark (fuel k)) r := by
  cases r with
  | start settings =>
    exact ⟨.of_eq rfl rfl, hs.addScope [], fun _ _ _ => rfl⟩
  | evaluate k e => exact staysTyped_run (Simulation.fair_evaluate e) k (fuel k) hs
  | callFunction k name args =>
    exact staysTyped_run (Simulation.fair_callFunction name args) k (fuel k) hs
  | prepare _ | addFunction _ _ | removeFunction _ _ _ | setParser _ _ | cancel _ _ | takeOutput _ =>
    exact ⟨.refl _, hs, fun _ _ _ => rfl⟩

/-- Every history leaves the heap typed. -/
theorem staysTyped_serve (fuel : Nat → Nat) (rs : List Request) (hs : host.heap.Typed) :
    StaysTyped (·.2.heap) host.heap (host.serve (fun k => evaluator (fuel k)) rs) fun alarm mark =>
      host.serve (fun k => alarmed alarm mark (fuel k)) rs := by
  induction rs generalizing host with
  | nil => exact ⟨.refl _, hs, fun _ _ _ => rfl⟩
  | cons r rs ih =>
    have hfirst := staysTyped_answer fuel r hs
    have hrest := ih hfirst.typed
    refine ⟨hfirst.prior.trans hrest.prior, hrest.typed, fun {last alarm} mark hlast halarm => ?_⟩
    -- the heap after the first request is prior to the one after the others
    simp only [serve, hfirst.same mark (hrest.prior.trans hlast) halarm, hrest.same mark hlast halarm]

theorem serve_append (ev : Nat → Evaluator) (host : Host) (rs rs' : List Request) :
    (host.serve ev (rs ++ rs')).2 = ((host.serve ev rs).2.serve ev rs').2 := by
  induction rs generalizing host with
  | nil => rfl
  | cons r rs ih => exact ih (host.answer ev r).2

end Host

/-- A property of heaps holds at every moment of a history: whatever is printed where an alarm goes off
that is silent where the property holds, it is as if nothing were. -/
def Host.Always (P : Heap → Prop) (fuel : Nat → Nat) (rs : List Request) : Prop :=
  ∀ (alarm : Heap → Bool) (mark : Output → Output), (∀ h, P h → alarm h = false) →
    Host.empty.serve (fun k => alarmed alarm mark (fuel k)) rs =
      Host.empty.serve (fun k => evaluator (fuel k)) rs

/-- An alarm that goes off is noticed. -/
example : ¬ Host.Always (fun _ => False) (fun _ => 2)
    [.start Host.bare, .evaluate 0 (.literal .null)] := by
  intro h
  have houtput := congrArg (fun r => r.2.sessions[0]?.map Session.output)
    (h (fun _ => true) (·.print "!") nofun)
  revert houtput
  decide +kernel

/-- **Typed slots stay typed.**  After every history of requests, every slot of a declared type holds
null or a value of exactly that type, and the heap is prior to the one after any further requests: no
immutable slot will ever hold another value.  At every moment of the history the heap was typed as well,
and prior to the last. -/
theorem slots_typed (fuel : Nat → Nat) (rs : List Request) :
    let plain := fun k => evaluator (fuel k)
    let last := (Host.empty.serve plain rs).2.heap
    last.Typed ∧
    (∀ rs', last.Prior (Host.empty.serve plain (rs ++ rs')).2.heap) ∧
    Host.Always (fun h => h.Typed ∧ h.Prior last) fuel rs := by
  intro plain last
  have hempty : Host.empty.heap.Typed := Heap.typed_empty
  have hlast := Host.staysTyped_serve fuel rs hempty
  refine ⟨hlast.typed, fun rs' => ?_, fun alarm mark halarm => ?_⟩
  · show last.Prior (Host.empty.serve plain (rs ++ rs')).2.heap
    rw [Host.serve_append]
    exact (Host.staysTyped_serve fuel rs' hlast.typed).prior
  · exact hlast.same mark (.refl _) fun h ht hprior => halarm h ⟨ht, hprior⟩

end TreeScript
