import TreeScript.Proofs.Endings.Structures
import TreeScript.Proofs.Overloads
import TreeScript.Proofs.Reach.Control

/-
# Rendering what is out of reach

While a container is being rendered, the classes of the objects in it are asked for their texts, which may run any
code of the program, and nothing may write to the container.  Code that reaches the container may try to
(`rendering_collides`).  Code that does not never does: a value whose containers and references are all out of reach
is rendered as if nothing was being rendered (`renderings_undisturbed`).

The proof sets the rendering beside one that holds no container (`Exec.freeTextTo`).  The two end the same wherever
code stays within reach, since such code reads of the containers being rendered only which of those within reach
are among them, and these are the same (`Exec.Alike.holding`).
-/

namespace TreeScript

open Exec Relation

/-! ## Renderings that hold nothing -/

namespace Exec

/-- The text of a value down to a depth, while no container counts as being rendered. -/
def freeTextTo : Nat → Value → Bool → Exec String
  | 0, _, _ => halt .outOfFuel
  | depth + 1, v, nested => do
    match ← heap fun h => h.shape v nested with
    | .text s => return s
    | .object i => objectText i
    | .same w => freeTextTo depth w nested
    | .row separator inner items =>
      return Heap.rowText separator (← items.mapM (freeTextTo depth · inner))
    | .entries es =>
      return Heap.entriesText (← es.mapM fun (k, w) => do
        let key ← freeTextTo depth k false
        let value ← freeTextTo depth w true
        return Heap.entryText key value)

/-- The text of a value, while no container counts as being rendered. -/
def freeText (v : Value) : Exec String := do freeTextTo (← fuel) v false

/-! ## Evaluations alike -/

/-- Two evaluations that end the same where storage is confined, and stay within reach. -/
structure Alike (r : Reach) (ev : Evaluator) {α : Type} (x y : Exec α) : Prop where
  within : Within r ev False (fun _ => True) y
  same : ∀ s : State, s.Confined r → x ev s = y ev s

namespace Alike

variable {r : Reach} {ev : Evaluator} {α β : Type} {x y : Exec α}

protected theorem refl (hx : Within r ev False (fun _ => True) x) : Alike r ev x x := ⟨hx, fun _ _ => rfl⟩

protected theorem give (a : α) : Alike r ev (pure a) (pure a) := .refl (.give trivial)

protected theorem bind {f g : α → Exec β} (h : Alike r ev x y) (hf : ∀ a, Alike r ev (f a) (g a)) :
    Alike r ev (x >>= f) (y >>= g) := by
  refine ⟨h.within.next fun a => (hf a).within, fun s hs => ?_⟩
  obtain ⟨hends, -⟩ := h.within s hs False.elim
  simp only [bind_apply, h.same s hs]
  generalize y ev s = o at hends
  obtain ⟨a | g | k, t⟩ := o
  · exact (hf a).same t hends.confined
  · rfl
  · rfl

protected theorem mapM {f g : α → Exec β} {items : List α} (h : ∀ a ∈ items, Alike r ev (f a) (g a)) :
    Alike r ev (items.mapM f) (items.mapM g) := by
  induction items with
  | nil => exact .give []
  | cons a items ih =>
    rw [List.mapM_cons, List.mapM_cons]
    have hitems := ih fun c hc => h c (List.mem_cons_of_mem a hc)
    exact (h a List.mem_cons_self).bind fun b => hitems.bind fun bs => .give (b :: bs)

/-- What is read is the same wherever storage is confined. -/
protected theorem read {f g : α → Exec β} {look : Heap → α} {a : α} (ha : ∀ h : Heap, h.Confined r → look h = a)
    (hf : Alike r ev (f a) (g a)) : Alike r ev (heap look >>= f) (heap look >>= g) := by
  have hread : Within r ev False (· = a) (heap look) := .heap ha
  refine ⟨hread.bind fun b hb => hb ▸ hf.within, fun s hs => ?_⟩
  show f (look s.heap) ev s = g (look s.heap) ev s
  rw [ha s.heap hs.heap]
  exact hf.same s hs

/-- That a container out of reach is being rendered makes no difference. -/
protected theorem holding {container : Value} (hout : ¬ r.Has container) (h : Alike r ev x y) :
    Alike r ev (holding container x) y := by
  refine ⟨h.within, fun s hs => ?_⟩
  obtain ⟨hends, hheld⟩ := h.within s hs False.elim
  have hsame : r.SameHeld s.held (container :: s.held) := by
    intro v hv
    have hne : (v == container) = false := beq_false_of_ne fun heq => hout (heq ▸ hv)
    rw [List.contains_cons, hne, Bool.false_or]
  -- `x` runs as `y` does while the container is being rendered, and `y` runs as it does while it is not
  have hbegun := h.same (s.withHeld (container :: s.held)) { hs with }
  rw [hheld _ hsame] at hbegun
  show ((x ev (s.withHeld (container :: s.held))).1, (x ev (s.withHeld (container :: s.held))).2.withHeld s.held) = _
  rw [hbegun, ← hends.kept.held]
  rfl

end Alike
end Exec

/-! ## Values out of reach -/

/-- What stands in a text is out of reach where it may change, and within reach where it runs code. -/
def Reach.Spares (r : Reach) (v : Value) : Prop :=
  match v with
  | .list _ | .array _ | .map _ | .ref _ => ¬ r.Has v
  | .object _ => r.Has v
  | _ => True

/-- Every container and reference to which a value leads is out of reach, and every object within. -/
def Reach.Apart (r : Reach) (h : Heap) (v : Value) : Prop := ∀ w, Leads h.parts v w → r.Spares w

namespace Reach

variable {r : Reach} {h h' : Heap} {v : Value} {nested : Bool}

/-- What is held while it is rendered is out of reach. -/
theorem Spares.not_has (hv : r.Spares v)
    (hshape : (∃ s i items, h.shape v nested = .row s i items) ∨ ∃ es, h.shape v nested = .entries es) :
    ¬ r.Has v := by
  cases v with
  | list i | array i | map i => exact hv
  | _ => rcases hshape with ⟨_, _, _, ⟨⟩⟩ | ⟨_, ⟨⟩⟩

theorem Spares.shape (hv : r.Spares v) (H : h.Confined r) (nested : Bool) :
    h.shape v nested = r.before.shape v nested := by
  cases v with
  | list i | array i => exact congrArg (fun items => TextShape.row _ _ items.toList) (H.sequences.kept i hv)
  | map i => exact congrArg (fun m => TextShape.entries m.entries) (H.maps.kept i hv)
  | ref i => exact congrArg (fun s => TextShape.same s.value) (H.slots.kept i hv)
  | _ => rfl

/-- What is inside a value out of reach stays. -/
theorem Apart.shows (hv : r.Apart h v) (H : h.Confined r) (H' : h'.Confined r) : h.Shows v h' := by
  intro w nested hw
  rw [(hv w hw).shape H', (hv w hw).shape H]

end Reach

/-! ## Rendering -/

namespace Exec

variable {r : Reach} {ev : Evaluator} {h : Heap} {v w : Value}

/-- What is inside a value out of reach is rendered as if nothing was being rendered. -/
theorem alike_stringifyTo (R : r.Ready ev) (H : h.Confined r) (hv : r.Apart h v) (hw : Leads h.parts v w)
    (depth : Nat) (nested : Bool) : Alike r ev (stringifyTo depth w nested) (freeTextTo depth w nested) := by
  induction depth generalizing w nested with
  | zero => exact .refl (.halt _)
  | succ depth ih =>
    have hpart : ∀ u ∈ (h.shape w nested).parts, ∀ inner,
        Alike r ev (stringifyTo depth u inner) (freeTextTo depth u inner) := by
      intro u hu inner
      rw [Heap.parts_shape] at hu
      exact ih (hw.tail hu) inner
    unfold stringifyTo freeTextTo
    -- objects asked for their texts may have changed all that is within reach, and so nothing inside `v`
    refine .read (fun h' H' => hv.shows H H' w nested hw) ?_
    cases hcase : h.shape w nested with
    | text t => exact .give t
    | object i =>
      obtain rfl := Heap.eq_object_of_shape hcase
      exact .refl (within_objectText R (hv _ hw))
    | same u => exact hpart u (by rw [hcase]; exact List.mem_cons_self) nested
    | row separator inner items =>
      refine .holding ((hv w hw).not_has (.inl ⟨_, _, _, hcase⟩)) (.bind (.mapM fun u hu => ?_) fun texts => .give _)
      exact hpart u (by rw [hcase]; exact hu) inner
    | entries es =>
      refine .holding ((hv w hw).not_has (.inr ⟨_, hcase⟩)) (.bind (.mapM fun e he => ?_) fun texts => .give _)
      have hmem : ∀ u ∈ [e.1, e.2], u ∈ (h.shape w nested).parts := fun u hu => by
        rw [hcase]
        exact List.mem_flatMap.mpr ⟨e, he, hu⟩
      have hkey := hpart e.1 (hmem e.1 List.mem_cons_self) false
      exact hkey.bind fun key => (hpart e.2 (hmem e.2 (by simp)) true).bind fun value => .give _

end Exec

/-! ## What the program cannot reach -/

/-- **What the program cannot reach is rendered undisturbed.**  Where storage is confined, take a value whose
containers and references are all out of reach and whose objects are within, while other containers out of reach are
being rendered.  Whatever the classes of the objects run, it is rendered as if no container was being rendered: no
write meets one that is held for it or for the renderings around it.  What is inside it stays as it is. -/
theorem renderings_undisturbed (r : Reach) (n : Nat) {s : State} {v : Value} (hs : s.Confined r)
    (hv : r.Apart s.heap v) (hheld : ∀ w ∈ s.held, ¬ r.Has w) :
    let free := freeText v (evaluator n) (s.withHeld [])
    stringify v (evaluator n) s = (free.1, free.2.withHeld s.held) ∧ s.heap.Shows v free.2.heap := by
  intro free
  obtain ⟨hwithin, hsame⟩ :=
    alike_stringifyTo (r.evaluator_ready n) hs.heap hv .refl (evaluator n).fuel false
  have hunheld : (s.withHeld []).Confined r := { hs with }
  obtain ⟨hends, hirrelevant⟩ := hwithin (s.withHeld []) hunheld False.elim
  have hnone : r.SameHeld [] s.held := by
    intro w hw
    have hout : ¬ w ∈ s.held := fun hmem => hheld w hmem hw
    rw [List.contains_nil, List.contains_eq_mem, decide_eq_false hout]
  refine ⟨?_, hv.shows hs.heap hends.confined.heap⟩
  show stringifyTo (evaluator n).fuel v false (evaluator n) s = _
  rw [hsame s hs]
  exact hirrelevant s.held hnone

/-- How an outcome halts, if it does. -/
def Outcome.halt? {α : Type} : Outcome α → Option Halt
  | .halted k => some k
  | _ => none

theorem Outcome.halt?_eq_some {α : Type} {o : Outcome α} {k : Halt} : o.halt? = some k ↔ o = .halted k := by
  cases o <;> simp [halt?]

namespace Host

/-- A class whose instances are shown as `x`, and write to the first element of a list when they are. -/
def writingTo (list : String) : ClassDecl Node where
  name := "A"
  superclasses := []
  fields := []
  methods := [{ answering "cast" [⟨"t", .any⟩] .null with
    body := .block [.indexAssign (.var list) [.literal (.int 0)] (.literal (.int 1)),
      .returnWith (some (.literal (.str "x")))] }]
  constructors := []

/-- The class, as it is built, whose instances write to `log`. -/
def loggingClass : ClassDef := ((ClassDef.build (writingTo "log") fun _ => none).toOption).getD default

/-- A heap in which `log` is a list, and a list and a map that nothing leads to hold an instance of the class. -/
def apartHeap : Heap where
  slots := #[⟨.any, .list 2, true⟩]
  scopes := #[⟨Table.empty.insert "log" 0, []⟩, ⟨.empty, [0]⟩]
  sequences := #[#[.object 0, .map 0], #[.list 0], #[.int 0]]
  maps := #[.ofList [(.str "a", .object 0)]]
  objects := #[⟨loggingClass, 1⟩]
  callables := #[]
  coroutines := #[]

/-- A session in which a list is being rendered that holds the list. -/
def apartState : State := ⟨apartHeap, .empty, [.list 1], .blank 1 0 bare⟩

/-- All is within reach except the lists and the map. -/
def apartReach : Reach where
  before := apartHeap
  sequence := fun i => 2 ≤ i
  map := fun i => 1 ≤ i
  slot := fun _ => True
  scope := fun _ => True
  object := fun _ => True
  callable := fun _ => True
  coroutine := fun _ => True

/-- Nothing else leads to the lists and the map. -/
theorem confined_apartHeap : apartHeap.Confined apartReach := by
  have hbuild : ClassDef.build (writingTo "log") (fun _ => none) = .ok loggingClass := rfl
  have hcls : apartReach.HasClass loggingClass := Reach.hasClass_build hbuild nofun
  have hscope (c : Scope) : apartReach.HasScope c := ⟨fun _ _ => trivial, fun _ _ => trivial⟩
  constructor
  case slots =>
    refine .of_forall (fun _ => rfl) (fun _ _ => trivial) trivial fun i hi _ => ?_
    obtain rfl := Nat.lt_one_iff.mp hi
    exact Nat.le_refl 2
  case scopes => exact .of_forall (fun _ => rfl) (fun _ _ => trivial) (hscope _) fun _ _ _ => hscope _
  case sequences =>
    refine .of_forall (fun _ => rfl) (fun i hi => Nat.le_of_succ_le hi) nofun fun i hi hle => ?_
    obtain rfl : i = 2 := Nat.le_antisymm (Nat.le_of_lt_succ hi) hle
    intro v hv
    cases List.mem_singleton.mp (Array.mem_toList_iff.mpr hv)
    trivial
  case maps =>
    exact .of_forall (fun _ => rfl) (fun i hi => hi) Reach.hasMap_empty fun i hi hle => absurd hi (Nat.not_lt.mpr hle)
  case objects =>
    refine .of_forall (fun _ => rfl) (fun _ _ => trivial) ⟨trivial, Table.all_empty _⟩ fun i hi _ => ?_
    obtain rfl := Nat.lt_one_iff.mp hi
    exact ⟨trivial, hcls⟩
  case callables => exact .of_forall (fun _ => rfl) (fun _ _ => trivial) trivial nofun
  case coroutines =>
    exact .of_forall (fun _ => rfl) (fun _ _ => trivial) ⟨nofun, trivial, trivial, nofun⟩ nofun

theorem confined_apartState : apartState.Confined apartReach := by
  refine ⟨confined_apartHeap, trivial, ?functions, ?classes, fun _ => List.forall_mem_nil _⟩
  case functions => rintro _ _ ⟨⟩
  case classes => rintro _ _ ⟨⟩

end Host

/-- An instance of a class that writes to a list is shown in another list, which its class cannot reach, while that
is being rendered: it has its text, and the write is made. -/
theorem renderings_undisturbed_logging :
    let s := Host.apartState
    let r := Host.apartReach
    s.Confined r ∧ r.Apart s.heap (.list 0) ∧ (∀ w ∈ s.held, ¬ r.Has w) ∧
      (let free := freeText (.list 0) (evaluator 20) (s.withHeld [])
      stringify (.list 0) (evaluator 20) s = (free.1, free.2.withHeld s.held) ∧ s.heap.Shows (.list 0) free.2.heap) ∧
      ((stringify (.list 0)).run 20 s).1 = .value "[x,\x7b\x22a\x22:x\x7d]" ∧
      ((stringify (.list 0)).run 20 s).2.heap.sequence 2 = #[.int 1] := by
  intro s r
  have hv : r.Apart s.heap (.list 0) := by
    intro w hw
    have hclosed : ∀ v ∈ [Value.list 0, .object 0, .map 0, .str "a"], ∀ w ∈ s.heap.parts v,
        w ∈ [Value.list 0, .object 0, .map 0, .str "a"] := by decide
    have hmem := hw.mem hclosed List.mem_cons_self
    simp only [List.mem_cons, List.not_mem_nil, or_false] at hmem
    rcases hmem with rfl | rfl | rfl | rfl
    · exact Nat.not_succ_le_zero 1
    · trivial
    · exact Nat.not_succ_le_zero 0
    · trivial
  have hheld : ∀ w ∈ s.held, ¬ r.Has w := List.forall_mem_singleton.mpr (Nat.not_succ_le_self 1)
  exact ⟨Host.confined_apartState, hv, hheld, renderings_undisturbed r 20 Host.confined_apartState hv hheld,
    Outcome.value?_eq_some.mp (by decide +kernel), by decide +kernel⟩

namespace Host

/-- A session in which a list holds an instance of a class that writes to the list. -/
def collidingHost : Host :=
  (Host.empty.serve (fun _ => evaluator 30) [.start bare, .prepare 1, .evaluate 0 (.classDef (writingTo "l")),
    .evaluate 0 (.declare .any "l" (some (.listLiteral [.call 0 "A" []])))]).2

/-- Where evaluations in the session begin. -/
def collidingState : State :=
  ⟨collidingHost.heap, collidingHost.sites, [], collidingHost.sessions.getD 0 (.blank 0 0 bare)⟩

end Host

/-- A list that holds an instance of a class that writes to it is never shown: the program stops.  If nothing counted
as being rendered, the list would have a text. -/
theorem rendering_collides :
    let s := Host.collidingState
    ((stringify (.list 0)).run 20 s).1 = .halted .heldContainer ∧
      ((applyBinary .add (.str "") (.list 0)).run 20 s).1 = .halted .heldContainer ∧
      ((freeText (.list 0)).run 20 s).1 = .value "[x]" :=
  ⟨Outcome.halt?_eq_some.mp (by decide +kernel), Outcome.halt?_eq_some.mp (by decide +kernel),
    Outcome.value?_eq_some.mp (by decide +kernel)⟩

end TreeScript
