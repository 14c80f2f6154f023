import TreeScript.Proofs.Sessions
import TreeScript.Proofs.Simulation.Moments
import TreeScript.Proofs.Storage

/-
# Instances keep their class

What an instance of a class may be asked is settled when it is made: whatever is evaluated, it stays an
instance of the same class, and goes on having the same methods.  The number of an instance is never
that of another one later, since instances are only added.  This asks nothing of the heap in which an
evaluation begins: its slots need not hold what suits their types.
-/

namespace TreeScript

open Exec

/-- The instances of a heap are in another one as well, and have the same classes there. -/
def Heap.Keeps (h h' : Heap) : Prop :=
  ∀ i < h.objects.size, i < h'.objects.size ∧ h'.classOf i = h.classOf i

namespace Heap

variable {h h' h'' : Heap}

theorem Keeps.refl (h : Heap) : h.Keeps h := fun _ hi => ⟨hi, rfl⟩

theorem Keeps.of_objects (hk : h.Keeps h') (hobjects : h''.objects = h'.objects) : h.Keeps h'' := by
  intro i hi
  rw [classOf, object, hobjects]
  exact hk i hi

theorem Keeps.addObject (hk : h.Keeps h') (o : Instance) :
    h.Keeps { h' with objects := h'.objects.push o } := by
  intro i hi
  obtain ⟨hlt, hcls⟩ := hk i hi
  refine ⟨?_, (congrArg Instance.cls (getD_push_lt h'.objects o hlt)).trans hcls⟩
  rw [Array.size_push]
  exact Nat.lt_succ_of_lt hlt

/-- What has a method is an instance. -/
theorem lt_of_method? {i argc : Nat} {name : String} {m : Routine}
    (hm : (h.classOf i).method? name argc = some m) : i < h.objects.size := by
  refine Nat.lt_of_not_le fun hi => ?_
  rw [classOf, object, Array.getD, dif_neg (Nat.not_lt.mpr hi)] at hm
  cases hm

theorem Keeps.method? (hk : h.Keeps h') {i argc : Nat} {name : String} {m : Routine}
    (hm : (h.classOf i).method? name argc = some m) : (h'.classOf i).method? name argc = some m := by
  rw [(hk i (lt_of_method? hm)).2]
  exact hm

theorem objects_unbind (h : Heap) (c : Nat) (x : String) : (h.unbind c x).2.objects = h.objects := by
  unfold unbind
  split <;> rfl

end Heap

/-! ## Instances as an invariant -/

/-- The instances that there were at some time are still there. -/
def Invariant.instances (h : Heap) : Invariant where
  World := Unit
  le _ _ := True
  holds _ s := h.Keeps s.heap
  way _ _ := True
  fits _ _ := True
  enters _ _ := True

namespace Invariant

variable {h : Heap}

theorem instances_untyped : (Invariant.instances h).Untyped where
  suits _ _ _ := trivial
  typed _ _ _ := trivial
  writable _ _ := trivial

theorem instances_operations : (Invariant.instances h).Operations where
  withStores hs _ := hs.of_objects rfl
  setValue hs _ _ _ := hs.of_objects rfl
  withHeld _ hs := hs
  newScope _ hs := hs.of_objects rfl
  declareSlot _ _ _ hs _ := hs.of_objects rfl
  unbind c x hs := hs.of_objects (Heap.objects_unbind _ c x)
  retain hs := ⟨(), trivial, hs⟩
  release hs := ⟨(), trivial, hs⟩
  addObject o hs := hs.addObject o
  callable _ _ _ := fun _ _ _ _ => trivial
  addCallable hs _ := hs.of_objects rfl
  addCoroutine _ hs _ _ _ := hs.of_objects rfl
  allows _ _ _ := fun _ _ _ _ => trivial
  addFunction hs _ := hs
  withClasses _ hs := hs
  reserve _ hs := hs
  remember _ _ hs _ := hs
  parsed _ _ _ _ _ := trivial
  withMeter _ hs := hs
  withOutput _ hs := hs
  withCancellation _ hs := hs
  nextFrame hs _ _ := ⟨(), trivial, hs⟩
  forget hs _ := ⟨(), trivial, hs⟩
  way_yield _ := trivial
  way_cons _ _ _ := trivial

/-- What leaves the instances as they are, keeps them. -/
theorem instances_passes {back : State → State} (hback : ∀ t, (back t).heap.objects = t.heap.objects) :
    (Invariant.instances h).Passes () () back :=
  fun _ t _ ht => ⟨(), trivial, ht.of_objects (hback t), id, fun _ _ => trivial⟩

theorem instances_boundaries : (Invariant.instances h).Boundaries where
  call hs _ :=
    ⟨(), ⟨fun h => h, fun h => h, fun h => h⟩, ⟨hs, id⟩, instances_passes fun _ => rfl⟩
  barrier hs := ⟨(), trivial, ⟨hs, id⟩, (instances_passes fun _ => rfl).returns⟩
  callScope {w s function c t} hs _ hacquire := by
    obtain ⟨pool, m, heap, rfl, hheap⟩ :=
      acquireScope_state (hacquire (.untraced 0 fun _ _ s => (.halted .outOfFuel, s)))
    refine ⟨(), trivial, ⟨?_, id⟩, (instances_passes fun _ => rfl).returns⟩
    rcases hheap with rfl | rfl
    · exact hs.of_objects rfl
    · exact hs.of_objects rfl
  aside hs _ := ⟨(), fun _ h => h, ⟨hs, id⟩, instances_passes fun _ => rfl⟩
  resumed hs _ :=
    ⟨(), trivial, ⟨hs.of_objects rfl, id⟩, (instances_passes fun _ => rfl).returns,
      fun _ _ _ _ ht _ => ⟨(), trivial, ht.of_objects rfl, id⟩⟩

/-- **Evaluations keep the instances.** -/
theorem instances_upheld (h : Heap) : (Invariant.instances h).Upheld where
  le_refl _ := trivial
  le_trans _ _ := trivial
  way_mono _ _ := trivial
  fits_mono _ _ := trivial
  marked_mono _ h := h
  fits_part _ _ := trivial
  enters_fits _ _ := trivial
  toTypes := instances_untyped.types fun _ => trivial
  toOperations := instances_operations
  toBoundaries := instances_boundaries

end Invariant

/-! ## Whole runs -/

/-- What agrees with itself keeps the instances. -/
theorem Simulation.Run.keeps {α : Type} {x : Exec α} {ev : Evaluator} {s : State}
    (hx : (Invariant.instances s.heap).toSimulation.Agrees ev ev () x x) :
    s.heap.Keeps (x ev s).2.heap := by
  have hends := hx s s (Invariant.rel_self (Heap.Keeps.refl s.heap))
  obtain ⟨hlax, _⟩ | ⟨_, _, _, ht, _⟩ := Invariant.eq_of_ends (fun _ h => h) hends
  · exact hlax.elim
  · exact ht

/-- **Nodes leave every instance with its class.** -/
theorem evaluateNode_keeps (fuel : Nat) (e : Node) (c : Nat) (s : State) :
    s.heap.Keeps (evaluateNode fuel e c s).2.heap := by
  have R := (Invariant.instances_upheld s.heap).ready fuel
  have hagrees : (Invariant.instances s.heap).toSimulation.Agrees (evaluator fuel) (evaluator fuel) ()
      (eval e c) (eval e c) := R.eval trivial rfl
  exact hagrees.keeps

/-- **Operators leave every instance with its class**, whatever code of the program they run. -/
theorem applyBinary_keeps (fuel : Nat) (op : BinaryOp) (l r : Value) (s : State) :
    s.heap.Keeps ((applyBinary op l r).run fuel s).2.heap :=
  Simulation.Run.keeps (Simulation.agrees_applyBinary (Invariant.instances_upheld s.heap).lawful
    ((Invariant.instances_upheld s.heap).ready fuel) op l r)

end TreeScript
