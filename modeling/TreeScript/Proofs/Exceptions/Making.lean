import TreeScript.Proofs.Endings.Structures
import TreeScript.Proofs.Hierarchy.Sessions
import TreeScript.Proofs.Rounds

/-
# Exceptions made from failures

A handler is given an object of the class of exceptions, which is made like any other: it has a scope for its
fields, and its constructor runs in a scope inside that, where it finds the field by name.  Both scopes are new,
so that it finds no other variable of that name (`Exec.instantiate_exception`).  The method of the object reads the
field in the same way (`Exec.callNamedMethod_getMessage`).
-/

namespace TreeScript

open Exec

/-! ## Exceptions -/

/-- An object is an exception with a message. -/
structure Heap.ExceptionAt (h : Heap) (i : Nat) (message : String) : Prop where
  made : i < h.objects.size
  cls : h.classOf i = exceptionDef
  fields : (h.object i).fields < h.scopes.size
  field : ∃ slot, h.lookupLocal (h.object i).fields "message" = some slot ∧
    h.slot slot = ⟨.string, .str message, true⟩

namespace Heap.ExceptionAt

variable {h : Heap} {i c : Nat} {message x : String} {ty : TypeKind} {v : Value}

theorem newScope (he : h.ExceptionAt i message) (parent : Nat) :
    (h.newScope parent).2.ExceptionAt i message where
  made := he.made
  cls := he.cls
  fields := size_scopes_newScope.symm ▸ Nat.lt_succ_of_lt he.fields
  field := by
    obtain ⟨slot, hslot, hvalue⟩ := he.field
    exact ⟨slot, (lookupLocal_newScope _).trans hslot, hvalue⟩

/-- A variable in another scope leaves it as it is. -/
theorem declare (he : h.ExceptionAt i message) (hc : c < h.scopes.size) (hne : (h.object i).fields ≠ c)
    (x : String) (ty : TypeKind) (v : Value) : (h.declare c x ty v).ExceptionAt i message where
  made := he.made
  cls := he.cls
  fields := size_scopes_declare.symm ▸ he.fields
  field := by
    obtain ⟨slot, hslot, hvalue⟩ := he.field
    have hfilled : (⟨.string, .str message, true⟩ : Slot) ≠ default := by
      intro h
      cases h
    refine ⟨slot, ?_, ?_⟩
    · show (h.declare c x ty v).lookupLocal (h.object i).fields "message" = _
      rw [lookupLocal_declare hc, if_neg fun h => hne h.1, hslot]
    · rw [slot_declare_of_lt (lt_of_slot_ne (hvalue ▸ hfilled)), hvalue]

end Heap.ExceptionAt

/-! ## Evaluations -/

namespace Exec

/-- When a body that changes nothing but the heap and the meter is left, nothing else has changed. -/
theorem leave_enterBody (s : State) (m : Meter) (h : Heap) :
    (leaveFrame (((enterBody [] s).withMeter m).withHeap h)).withResume s.session.resume =
      (s.withMeter m).withHeap h := by
  rcases s with ⟨heap, sites, held, session⟩
  cases session
  rfl

/-- A body without a pooled scope that gives a value and changes nothing but the heap and the meter. -/
theorem asBarrier_of_value {name : String} {x : Exec Value} {ev : Evaluator} {s : State} {v : Value}
    {calls : CallStack} {m : Meter} {h : Heap} (hpush : s.session.calls.push name = .ok calls)
    (hx : x ev (enterBody [] (s.withCalls calls)) =
      (.value v, ((enterBody [] (s.withCalls calls)).withMeter m).withHeap h)) :
    asBarrier name x ev s = (.value v, (s.withMeter m).withHeap h) := by
  have hbody : settle (withResume [] (withFrame .barrier x)) ev (s.withCalls calls) =
      (.value v, ((s.withCalls calls).withMeter m).withHeap h) := by
    show (settled (x ev (enterBody [] (s.withCalls calls))).1,
      (leaveFrame (x ev (enterBody [] (s.withCalls calls))).2).withResume (s.withCalls calls).session.resume) = _
    rw [hx, leave_enterBody]
    rfl
  unfold asBarrier
  rw [asCall_apply, hpush]
  dsimp only
  rw [hbody, endCall_eq hpush rfl]
  rfl

end Exec

namespace Heap

/-- A scope for a method of an object. -/
def methodScope (h : Heap) (i : Nat) : Heap :=
  (h.newScope (h.object i).fields).2.declare h.scopes.size "this" (.object (h.classOf i).name) (.object i)

variable {h : Heap} {i : Nat} {x : String}

theorem size_scopes_methodScope : (h.methodScope i).scopes.size = h.scopes.size + 1 :=
  size_scopes_declare.trans size_scopes_newScope

theorem scope_methodScope {a : Nat} (ha : a < h.scopes.size) : (h.methodScope i).scope a = h.scope a := by
  rw [methodScope, scope_declare, if_neg fun h => Nat.ne_of_gt ha h.1, scope_newScope,
    if_neg (Nat.ne_of_lt ha)]

/-- It is inside the scope of the fields, -/
theorem ancestors_methodScope :
    ((h.methodScope i).scope h.scopes.size).ancestors =
      (h.object i).fields :: (h.scope (h.object i).fields).ancestors := by
  rw [methodScope, scope_declare, if_pos ⟨rfl, size_scopes_newScope ▸ Nat.lt_succ_self _⟩, scope_newScope,
    if_pos rfl]

/-- and binds the object only. -/
theorem lookupLocal_methodScope (hx : x ≠ "this") (a : Nat) :
    (h.methodScope i).lookupLocal a x = h.lookupLocal a x := by
  rw [methodScope, lookupLocal_declare (size_scopes_newScope ▸ Nat.lt_succ_self _), if_neg fun h => hx h.2,
    lookupLocal_newScope]

end Heap

namespace Exec

variable {s : State} {calls : CallStack} {message : String} {i c : Nat}

/-- The method of an exception gives its message. -/
theorem callNamedMethod_getMessage (he : s.heap.ExceptionAt i message)
    (hpush : s.session.calls.push "getMessage" = .ok calls) (ev : Evaluator) :
    ∃ t, callNamedMethod i "getMessage" [] ev s = (.value (.str message), t) := by
  obtain ⟨slot, hslot, hvalue⟩ := he.field
  have hmethod : findMethod i "getMessage" 0 ev s = (.value getMessage, s) := by
    have hcls : heap (fun h => h.classOf i) ev s = (.value exceptionDef, s) :=
      congrArg (fun cls => (Outcome.value cls, s)) he.cls
    rw [findMethod, bind_apply, hcls]
    rfl
  have hnone : s.heap.lookupLocal s.heap.scopes.size "message" = none := by
    rw [Heap.lookupLocal, Heap.scope_size]
    rfl
  -- the scope of the method is empty and inside that of the exception, where the message is found
  have hread : (s.heap.methodScope i).read s.heap.scopes.size "message" = .str message := by
    have hlookup : (s.heap.methodScope i).lookup s.heap.scopes.size "message" = some slot := by
      refine Heap.lookup_of_parent Heap.ancestors_methodScope ?_ ?_
      · rw [Heap.lookupLocal_methodScope (by decide), hnone]
      · rw [Heap.lookupLocal_methodScope (by decide), hslot]
    have hfilled : (⟨.string, .str message, true⟩ : Slot) ≠ default := by
      intro h
      cases h
    rw [Heap.read, hlookup]
    show ((s.heap.methodScope i).slot slot).value = _
    rw [show (s.heap.methodScope i).slot slot = s.heap.slot slot from
      Heap.slot_declare_of_lt (Heap.lt_of_slot_ne (hvalue ▸ hfilled)), hvalue]
  let t := (s.withMeter s.session.meter.countMethodCall).withHeap (s.heap.methodScope i)
  have hbody : asNative (do
      runNative .exceptionMessage s.heap.scopes.size (← convertArgsWith coerce getMessage.params []))
      ev (enterBody [] (t.withCalls calls)) = (.value (.str message), enterBody [] (t.withCalls calls)) := by
    show (hostFailed (.value ((s.heap.methodScope i).read s.heap.scopes.size "message")), _) = _
    rw [hread]
    rfl
  refine ⟨t, ?_⟩
  unfold callNamedMethod
  rw [bind_apply, show findMethod i "getMessage" ([] : List Value).length ev s = _ from hmethod]
  exact asBarrier_of_value (s := t) hpush hbody

end Exec

namespace Heap

/-- The scopes of an exception when its constructor begins: in that of its fields the message is empty, and the
one of the constructor has the argument. -/
def prepared (h : Heap) (fields c : Nat) (message : String) : Heap :=
  (h.declare fields "message" .string (.str "")).declare c "msg" .string (.str message)

section
variable {h : Heap} {fields c : Nat} {message : String}

theorem size_scopes_prepared : (h.prepared fields c message).scopes.size = h.scopes.size :=
  size_scopes_declare.trans size_scopes_declare

theorem scope_prepared {a : Nat} (hfields : a ≠ fields) (hc : a ≠ c) :
    (h.prepared fields c message).scope a = h.scope a := by
  rw [prepared, scope_declare, if_neg fun h => hc h.1.symm, scope_declare, if_neg fun h => hfields h.1.symm]

theorem lookupLocal_prepared (hfields : fields < h.scopes.size) (hc : c < h.scopes.size) :
    (h.prepared fields c message).lookupLocal fields "message" = some h.slots.size := by
  rw [prepared, lookupLocal_declare (size_scopes_declare.symm ▸ hc), if_neg fun h => absurd h.2 (by decide),
    lookupLocal_declare hfields, if_pos ⟨rfl, rfl⟩]

theorem slot_prepared : (h.prepared fields c message).slot h.slots.size = ⟨.string, .str "", true⟩ := by
  rw [prepared, slot_declare_of_lt (size_slots_declare.symm ▸ Nat.lt_succ_self _)]
  exact slot_declare_size

theorem size_slots_prepared : (h.prepared fields c message).slots.size = h.slots.size + 2 :=
  size_slots_declare.trans (congrArg (· + 1) size_slots_declare)

/-- The constructor reads its argument, -/
theorem read_prepared (hc : c < h.scopes.size) : (h.prepared fields c message).read c "msg" = .str message := by
  have hlookup : (h.prepared fields c message).lookup c "msg" =
      some (h.declare fields "message" .string (.str "")).slots.size := by
    apply lookup_of_local
    rw [prepared, lookupLocal_declare (size_scopes_declare.symm ▸ hc), if_pos ⟨rfl, rfl⟩]
  rw [read, hlookup]
  exact congrArg Slot.value slot_declare_size

/-- and finds the field from inside. -/
theorem lookup_prepared {around : List Nat} (hfields : fields < h.scopes.size) (hc : c < h.scopes.size)
    (hne : fields ≠ c) (hinside : (h.scope c).ancestors = fields :: around)
    (hnone : h.lookupLocal c "message" = none) :
    (h.prepared fields c message).lookup c "message" = some h.slots.size := by
  have hc₁ : c < (h.declare fields "message" .string (.str "")).scopes.size := size_scopes_declare.symm ▸ hc
  have hparent : ((h.prepared fields c message).scope c).ancestors = fields :: around := by
    rw [prepared, scope_declare, if_pos ⟨rfl, hc₁⟩, scope_declare, if_neg fun h => hne h.1]
    exact hinside
  refine lookup_of_parent hparent ?_ (lookupLocal_prepared hfields hc)
  rw [prepared, lookupLocal_declare hc₁, if_neg fun h => absurd h.2 (by decide), lookupLocal_declare hfields,
    if_neg fun h => hne h.1.symm, hnone]

end

/-- The scopes of an exception when its constructor has run: that of its fields, and the one of the
constructor inside. -/
def constructed (h : Heap) (fields c : Nat) (message : String) : Heap :=
  ((h.declare fields "message" .string (.str "")).declare c "msg" .string (.str message)).setValue
    h.slots.size (.str message)

variable {h : Heap} {fields c : Nat} {message : String}

/-- The constructor stores the message in the field. -/
theorem constructed_eq : h.constructed fields c message =
    (h.prepared fields c message).setValue h.slots.size (.str message) := rfl

theorem size_scopes_constructed : (h.constructed fields c message).scopes.size = h.scopes.size :=
  size_scopes_prepared

/-- Other scopes stay as they are. -/
theorem scope_constructed {a : Nat} (hfields : a ≠ fields) (hc : a ≠ c) :
    (h.constructed fields c message).scope a = h.scope a :=
  scope_prepared hfields hc

theorem lookupLocal_constructed (hfields : fields < h.scopes.size) (hc : c < h.scopes.size) :
    (h.constructed fields c message).lookupLocal fields "message" = some h.slots.size :=
  lookupLocal_prepared hfields hc

theorem slot_constructed : (h.constructed fields c message).slot h.slots.size =
    ⟨.string, .str message, true⟩ := by
  rw [constructed_eq]
  exact slot_setValue_self slot_prepared (size_slots_prepared ▸ by omega)

end Heap

namespace Exec

variable {n fields i c : Nat} {around : List Nat} {s : State}

/-- The body of the constructor, `message = msg`, stores the argument in the field. -/
theorem eval_messageBody (haffords : s.Affords 2) (hfields : fields < s.heap.scopes.size)
    (hc : c < s.heap.scopes.size) (hne : fields ≠ c) (hinside : (s.heap.scope c).ancestors = fields :: around)
    (hnone : s.heap.lookupLocal c "message" = none) (message : String) :
    ∃ m, eval (.assign "message" (.var "msg")) c (evaluator (n + 2))
        (s.withHeap (s.heap.prepared fields c message)) =
      (.value (.str message), (s.withMeter m).withHeap (s.heap.constructed fields c message)) := by
  let h := s.heap.prepared fields c message
  have haffords' : (s.withHeap h).Affords 2 := ⟨haffords.unmarked, haffords.budget⟩
  obtain ⟨m₁, hassign, haffords₁⟩ := enterNode_affords haffords'
  obtain ⟨m₂, hvar, -⟩ := enterNode_affords haffords₁
  refine ⟨m₂, ?_⟩
  have hvalue : eval (.var "msg") c (evaluator (n + 1)) ((s.withHeap h).withMeter m₁) =
      (.value (.str message), (s.withHeap h).withMeter m₂) := by
    have hread : h.read c "msg" = .str message := Heap.read_prepared hc
    rw [← hread]
    exact evaluateNode_of_enterNode hvar n (.var "msg") c
  show evaluateNode (n + 2) _ c _ = _
  rw [evaluateNode_of_enterNode hassign]
  show evalAssign "message" (.var "msg") c (evaluator (n + 1)) _ = _
  rw [evalAssign_of_lookup hvalue (Heap.lookup_prepared hfields hc hne hinside hnone)]
  show (coerce (.str message) (h.slot s.heap.slots.size).type >>= _ : Exec Value) _ _ = _
  rw [Heap.slot_prepared]
  show (if (h.slot s.heap.slots.size).isMutable = true then _ else _ : Exec Value) _ _ = _
  rw [Heap.slot_prepared]
  rfl

/-- The constructor of exceptions stores the message in the field. -/
theorem construct_exception (haffords : s.Affords 2) (hobject : (s.heap.object i).fields = fields)
    (hfields : fields < s.heap.scopes.size) (hc : c < s.heap.scopes.size) (hne : fields ≠ c)
    (hinside : (s.heap.scope c).ancestors = fields :: around) (hnone : s.heap.lookupLocal c "message" = none)
    (message : String) :
    ∃ m, construct i c exceptionDef (exceptionDef.constructor? 1) [.str message] (evaluator (n + 2)) s =
      (.value .null, (s.withMeter m).withHeap (s.heap.constructed fields c message)) := by
  obtain ⟨m, hbody⟩ := eval_messageBody (n := n) haffords hfields hc hne hinside hnone message
  refine ⟨m, ?_⟩
  have hfirst : construct i c exceptionDef (exceptionDef.constructor? 1) [.str message] (evaluator (n + 2)) s =
      (settle (eval (.assign "message" (.var "msg")) c) >>= fun _ => pure .null : Exec Value)
        (evaluator (n + 2)) (s.withHeap (s.heap.prepared (s.heap.object i).fields c message)) := rfl
  have hsettled : settle (eval (.assign "message" (.var "msg")) c) (evaluator (n + 2))
      (s.withHeap (s.heap.prepared fields c message)) =
      (.value (.str message), (s.withMeter m).withHeap (s.heap.constructed fields c message)) := by
    rw [settle, mapOutcome, hbody]
    rfl
  rw [hfirst, hobject, bind_apply, hsettled]
  rfl

end Exec

namespace Heap

/-- The heap in which an exception with a message has been made, by a session with a root scope. -/
def withException (h : Heap) (root : Nat) (message : String) : Heap :=
  ((h.newObject exceptionDef root).2.methodScope h.objects.size).constructed h.scopes.size
    (h.scopes.size + 1) message

variable {h : Heap} {root : Nat} {message : String}

theorem object_newObject {cls : ClassDef} :
    (h.newObject cls root).2.object h.objects.size = ⟨cls, h.scopes.size⟩ := getD_push_size _ _

theorem size_scopes_newObject {cls : ClassDef} : (h.newObject cls root).2.scopes.size = h.scopes.size + 1 :=
  Array.size_push _

theorem size_scopes_withException : (h.withException root message).scopes.size = h.scopes.size + 2 := by
  rw [withException, size_scopes_constructed, size_scopes_methodScope, size_scopes_newObject]

/-- The scopes that there were stay as they are. -/
theorem scope_withException {a : Nat} (ha : a < h.scopes.size) :
    (h.withException root message).scope a = h.scope a := by
  rw [withException, scope_constructed (Nat.ne_of_lt ha) (Nat.ne_of_lt (Nat.lt_succ_of_lt ha)),
    scope_methodScope (size_scopes_newObject.symm ▸ Nat.lt_succ_of_lt ha)]
  exact getD_push_lt _ _ ha

theorem object_withException :
    (h.withException root message).object h.objects.size = ⟨exceptionDef, h.scopes.size⟩ := by
  show (h.newObject exceptionDef root).2.object h.objects.size = _
  exact object_newObject

theorem exceptionAt_withException : (h.withException root message).ExceptionAt h.objects.size message := by
  have hsize : ((h.newObject exceptionDef root).2.methodScope h.objects.size).scopes.size = h.scopes.size + 2 := by
    rw [size_scopes_methodScope, size_scopes_newObject]
  constructor
  case made => exact (Array.size_push _).symm ▸ Nat.lt_succ_self _
  case cls => rw [classOf, object_withException]
  case fields =>
    rw [object_withException, size_scopes_withException]
    show h.scopes.size < h.scopes.size + 2
    omega
  case field =>
    rw [object_withException]
    exact ⟨_, lookupLocal_constructed (by omega) (by omega), slot_constructed⟩

end Heap

namespace Exec

variable {n : Nat} {s : State} {calls : CallStack}

/-- An exception is made with its message, if there is room for its constructor. -/
theorem instantiate_exception (haffords : s.Affords 2) (hpush : s.session.calls.push exceptionClass = .ok calls)
    (message : String) :
    ∃ m, instantiate exceptionDef (exceptionDef.constructor? 1) [.str message] (evaluator (n + 2)) s =
      (.value (.object s.heap.objects.size),
        (s.withMeter m).withHeap (s.heap.withException s.session.root message)) := by
  let i := s.heap.objects.size
  let fields := s.heap.scopes.size
  let h₁ := (s.heap.newObject exceptionDef s.session.root).2
  let h₂ := h₁.methodScope i
  have hsize₁ : h₁.scopes.size = fields + 1 := Heap.size_scopes_newObject
  have hsize₂ : h₂.scopes.size = fields + 2 := Heap.size_scopes_methodScope.trans (congrArg (· + 1) hsize₁)
  have hobject : h₁.object i = ⟨exceptionDef, fields⟩ := Heap.object_newObject
  have hinside : (h₂.scope (fields + 1)).ancestors = fields :: (h₁.scope fields).ancestors := by
    have hancestors := Heap.ancestors_methodScope (h := h₁) (i := i)
    rw [hsize₁, hobject] at hancestors
    exact hancestors
  have hnone : h₂.lookupLocal (fields + 1) "message" = none := by
    rw [Heap.lookupLocal_methodScope (by decide), ← hsize₁, Heap.lookupLocal, Heap.scope_size]
    rfl
  have hfields₂ : fields < h₂.scopes.size := by omega
  have hinner₂ : fields + 1 < h₂.scopes.size := by omega
  obtain ⟨m, hbody⟩ := construct_exception (n := n) (i := i) (c := fields + 1)
    (s := enterBody [] ((s.withHeap h₂).withCalls calls)) ⟨haffords.unmarked, haffords.budget⟩
    (congrArg Instance.fields hobject) hfields₂ hinner₂ (Nat.ne_of_lt (Nat.lt_succ_self _)) hinside hnone message
  refine ⟨m, ?_⟩
  have hbarrier := asBarrier_of_value (s := s.withHeap h₂) hpush hbody
  rw [instantiate_eq]
  show (asBarrier exceptionClass (construct i h₁.scopes.size exceptionDef _ _) >>=
    fun _ => pure (.object i) : Exec Value) _ (s.withHeap h₂) = _
  rw [hsize₁, bind_apply, hbarrier]
  rfl

/-- A failure is made into an exception with its message. -/
theorem exceptionFrom_apply (hknown : s.session.classes.find? exceptionClass = some exceptionDef)
    (haffords : s.Affords 2) (hpush : s.session.calls.push exceptionClass = .ok calls) (e : EvalError) :
    ∃ m, exceptionFrom e (evaluator (n + 2)) s =
      (.value (.object s.heap.objects.size),
        (s.withMeter m).withHeap (s.heap.withException s.session.root e.message)) := by
  obtain ⟨m, hmade⟩ := instantiate_exception (n := n) haffords hpush e.message
  refine ⟨m, ?_⟩
  rw [exceptionFrom_eq, bind_apply, classForFailure_apply, hknown]
  show mapOutcome settled (instantiate exceptionDef _ _) _ s = _
  rw [mapOutcome, hmade]
  rfl

end Exec
end TreeScript
