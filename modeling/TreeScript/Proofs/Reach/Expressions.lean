import TreeScript.Proofs.Elements
import TreeScript.Proofs.Reach.Hooks

/-
# Expressions, within reach

Operators that run no code give primitive values; what else is given is read from storage or made.  An element is
written only into a container within reach, and whether that is being rendered is all that is read of what is.
-/

namespace TreeScript

open Exec

/-! ## Results of operators -/

section
variable {v l r : Value} {op : BinaryOp}

theorem Integer.primitive_binary {ty : TypeKind} {a b : Int} (h : Integer.binary ty op a b = .ok v) :
    v.Primitive := by
  unfold Integer.binary at h
  cases op <;> dsimp only at h <;> try split at h
  all_goals
    cases h <;> first
      | rfl
      | exact Heap.primitive_ofInteger ty _

theorem FloatArithmetic.primitive_binary {α : Type} {f : FloatArithmetic α} (hf : ∀ x, (f.value x).Primitive)
    {x y : α} (h : f.binary op x y = .ok v) : v.Primitive := by
  unfold FloatArithmetic.binary at h
  cases op <;> cases h <;> first | rfl | exact hf _

theorem Operands.primitive_binary {operands : Operands} (h : operands.binary op = .ok v) : v.Primitive := by
  cases operands with
  | doubles x y => exact FloatArithmetic.primitive_binary (f := .double) (fun _ => rfl) h
  | floats x y => exact FloatArithmetic.primitive_binary (f := .single) (fun _ => rfl) h
  | integers ty a b => exact Integer.primitive_binary h

namespace Heap

theorem primitive_arithmetic {h : Heap} (hv : h.arithmetic op l r = .ok v) : v.Primitive := by
  unfold arithmetic at hv
  split at hv
  · obtain ⟨operands, -, hv⟩ := ClassDef.exists_of_bind (checked_eq_ok_iff.mp hv)
    exact Operands.primitive_binary hv
  · cases hv

/-- What is found out by a comparison is a truth. -/
theorem primitive_of_truth {x : Checked Bool} {f : Bool → Bool}
    (hv : (do return Value.bool (f (← x)) : Checked Value) = .ok v) : v.Primitive := by
  obtain ⟨b, -, hv⟩ := ClassDef.exists_of_bind hv
  cases hv
  rfl

theorem primitive_binary {h : Heap} (hv : h.binary op l r = .ok v) : v.Primitive := by
  unfold binary at hv
  split at hv
  · exact primitive_of_truth hv
  · exact primitive_of_truth hv
  · exact primitive_of_truth hv
  · split at hv <;> cases hv
    rfl
  · split at hv <;> cases hv
    rfl
  · split at hv
    · cases hv
      rfl
    · cases hv
    · cases hv
    · exact primitive_arithmetic hv
  · split at hv
    · cases hv
    · exact primitive_arithmetic hv

theorem primitive_unary {h : Heap} {op : UnaryOp} (hv : h.evaluateUnary op v = .ok l) : l.Primitive := by
  unfold evaluateUnary at hv
  cases op <;> dsimp only at hv <;> split at hv <;> cases hv <;> rfl

end Heap
end

/-! ## Elements -/

theorem has_element {h : Heap} {container key v : Value} {lenient single : Bool} {r : Reach}
    (H : h.Confined r) (hc : r.Has container) (hv : element h container key lenient single = .ok v) : r.Has v := by
  unfold element at hv
  dsimp only at hv
  split at hv
  · obtain ⟨place, -, hv⟩ := ClassDef.exists_of_bind (Heap.checked_eq_ok_iff.mp hv)
    cases hv
    exact H.getD hc
  · obtain ⟨place, -, hv⟩ := ClassDef.exists_of_bind (Heap.checked_eq_ok_iff.mp hv)
    cases hv
    exact H.getD hc
  · split at hv
    · rename_i hfind
      cases hv
      exact (H.maps.ok _ hc).find? hfind
    · split at hv
      · cases hv
        trivial
      · obtain ⟨text, -, hv⟩ := ClassDef.exists_of_bind hv
        cases hv
  · split at hv
    · obtain ⟨place, -, hv⟩ := ClassDef.exists_of_bind (Heap.checked_eq_ok_iff.mp hv)
      cases hv
      trivial
    · cases hv
  · cases hv

namespace Exec

variable {r : Reach} {ev : Evaluator} {inside : Prop} {v w : Value} {keys args : List Value} {c i : Nat}

/-- Whether a container within reach is being rendered. -/
theorem within_isHeld (hv : r.Has v) : Within r ev inside (fun _ => True) (isHeld v) := by
  refine fun s hs _ => ⟨⟨trivial, hs, .refl s⟩, fun held h => ?_⟩
  show (Outcome.value (held.contains v), s.withHeld held) = _
  rw [← h v hv]
  rfl

/-- A container within reach is written, unless it is being rendered. -/
theorem within_unlessHeld {container : Value} (hcontainer : r.Has container) (hv : r.Has v) {write : Heap → Heap}
    (hwrite : ∀ h, h.Confined r → (write h).Confined r) :
    Within r ev inside r.Has (do
      if ← isHeld container then halt .heldContainer
      else
        modifyHeap write
        return v) := by
  refine (within_isHeld hcontainer).next fun b => ?_
  split
  · exact .halt _
  · exact (Within.modifyHeap hwrite).next fun _ => .give hv

/-! ### Bindings -/

theorem within_declare (hc : r.scope c) (x : String) (ty : TypeKind) (hv : r.Has v) :
    Within r ev inside r.Has (do
      modifyHeap fun h => h.declare c x ty v
      return v) :=
  (Within.modifyHeap fun _ H => H.declare hc ty hv).next fun _ => .give hv

theorem within_lookup (hc : r.scope c) (x : String) :
    Within r ev inside (fun slot => ∀ i ∈ slot, r.slot i) (heap fun h => h.lookup c x) :=
  .heap fun _ H _ hi => H.lookup hc hi

theorem within_fieldSlot (hv : r.Has v) (x : String) : Within r ev inside r.slot (fieldSlot v x) := by
  unfold fieldSlot
  split
  · have hread : Within r ev inside (fun slot => ∀ i ∈ slot, r.slot i)
        (heap fun h => h.lookupLocal (h.object _).fields x) :=
      .heap fun h H j hj => H.lookupLocal (H.fields hv) hj
    refine hread.bind fun slot hslot => ?_
    split
    · exact .give (hslot _ rfl)
    · exact (Within.plain _).next fun _ => .fail _
  · exact (Within.plain _).next fun _ => .fail _

/-! ### Hooks of collections -/

variable (R : r.Ready ev)
include R

/-- The hooks of collections are called with the keys in a list. -/
theorem within_callHook (hi : r.object i) (hook : String) (hkeys : ∀ v ∈ keys, r.Has v)
    (hargs : ∀ v ∈ args, r.Has v) :
    Within r ev inside r.Has (do callNamedMethod i hook ((← newList keys) :: args)) :=
  (within_newList hkeys).bind fun _ hlist =>
    within_callNamedMethod R hi hook (List.forall_mem_cons.mpr ⟨hlist, hargs⟩)

theorem within_walk (lenient single : Bool) (hv : r.Has v) (hkeys : ∀ v ∈ keys, r.Has v) :
    Within r ev inside r.Has (walk lenient single v keys) := by
  induction keys generalizing v with
  | nil =>
    unfold walk
    exact .give hv
  | cons key rest ih =>
    by_cases hobject : ∃ i, v = .object i
    · obtain ⟨i, rfl⟩ := hobject
      exact within_callHook R hv "collection.get" hkeys (List.forall_mem_nil _)
    · rw [walk_cons (not_exists.mp hobject)]
      have hread : Within r ev inside (fun o => ∀ w, o = .ok w → r.Has w)
          (heap fun h => element h v key (rest.isEmpty && lenient) single) :=
        .heap fun h H w hw => has_element H hv hw
      refine hread.bind fun o ho => (Within.ofChecked ho).bind fun w hw => ih hw fun u hu => ?_
      exact hkeys u (List.mem_cons_of_mem key hu)

theorem within_setElement {container key : Value} (hcontainer : r.Has container) (hkey : r.Has key)
    (hv : r.Has v) : Within r ev inside r.Has (setElement container key v) := by
  cases container with
  | list i | array i =>
    refine (Within.plain _).next fun o => (Within.ofExcept fun _ _ => trivial).next fun place => ?_
    exact within_unlessHeld hcontainer hv fun _ H => H.setElement hcontainer hv
  | map i => exact within_unlessHeld hcontainer hv fun _ H => H.setEntry hcontainer hkey hv
  | object i =>
    exact within_callHook R hcontainer "collection.set" (List.forall_mem_singleton.mpr hkey)
      (List.forall_mem_singleton.mpr hv)
  | _ => exact within_typeMismatch _ _

theorem within_indexSet (hv : r.Has v) (hkeys : ∀ v ∈ keys, r.Has v) (hw : r.Has w) :
    Within r ev inside r.Has (indexSet v keys w) := by
  by_cases hobject : ∃ i, v = .object i
  · obtain ⟨i, rfl⟩ := hobject
    exact within_callHook R hv "collection.set" hkeys (List.forall_mem_singleton.mpr hw)
  · have hbase := not_exists.mp hobject
    rcases List.eq_nil_or_concat keys with rfl | ⟨path, last, rfl⟩
    · rw [indexSet_nil hbase]
      exact .fail _
    · rw [List.concat_eq_append] at hkeys ⊢
      obtain ⟨hpath, hlast⟩ := List.forall_mem_append.mp hkeys
      rw [indexSet_concat hbase]
      refine (within_walk R false _ hv hpath).bind fun container hcontainer => ?_
      exact within_setElement R hcontainer (hlast last (List.mem_singleton_self last)) hw

/-! ## Variables and fields -/

theorem within_store (hi : r.slot i) (name : String) (hv : r.Has v) : Within r ev inside r.Has (store i name v) := by
  refine (Within.plain _).next fun ty => (within_coerce R hv ty).bind fun w hw => ?_
  refine (Within.plain _).next fun isMutable => ?_
  split
  · exact (Within.modifyHeap fun h H => H.setValue hi hw).next fun _ => .give hw
  · exact .fail _

theorem within_evalDeclare (hc : r.scope c) (ty : TypeKind) (x : String) (value : Option Node) :
    Within r ev True r.Has (evalDeclare ty x value c) := by
  cases value with
  | none => exact (Within.make fun h H => H.defaultValue ty).bind fun v hv => within_declare hc x ty hv
  | some e =>
    refine (R.eval e hc).bind fun v hv => (within_coerce R hv ty).bind fun w hw => ?_
    exact within_declare hc x ty hw

theorem within_evalAssign (hc : r.scope c) (x : String) (value : Node) :
    Within r ev True r.Has (evalAssign x value c) := by
  refine (R.eval value hc).bind fun v hv => (within_lookup hc x).bind fun slot hslot => ?_
  split
  · exact within_store R (hslot _ rfl) x hv
  · exact .fail _

theorem within_evalConstObject (hc : r.scope c) (cls x : String) (value : Node) :
    Within r ev True r.Has (evalConstObject cls x value c) := by
  refine (R.eval value hc).bind fun v hv => (within_checkInstance hv cls).bind fun w hw => ?_
  exact (Within.modifyHeap fun h H => H.declareSlot hc hw).next fun _ => .give hw

theorem within_evalField (hc : r.scope c) (target : Node) (x : String) :
    Within r ev True r.Has (evalField target x c) := by
  refine (R.eval target hc).bind fun v hv => (within_fieldSlot hv x).bind fun slot hslot => ?_
  exact .heap fun h H => H.value hslot

theorem within_evalFieldAssign (hc : r.scope c) (target : Node) (x : String) (value : Node) :
    Within r ev True r.Has (evalFieldAssign target x value c) := by
  refine (R.eval target hc).bind fun v hv => (within_fieldSlot hv x).bind fun slot hslot => ?_
  exact (R.eval value hc).bind fun w hw => within_store R hslot x hw

/-! ## Operators -/

theorem within_plainBinary (op : BinaryOp) (hv : r.Has v) (hw : r.Has w) :
    Within r ev inside r.Has (plainBinary op v w) := by
  unfold plainBinary
  split
  · exact (within_stringify R hv).next fun _ => (within_stringify R hw).next fun _ => .give trivial
  · have hread : Within r ev inside (fun o => ∀ u, o = .ok u → r.Has u) (heap fun h => h.binary op v w) :=
      .heap fun h H u hu => Reach.has_primitive (Heap.primitive_binary hu)
    exact hread.bind fun o ho => .ofChecked ho

theorem within_asText (hv : r.Has v) : Within r ev inside r.Has (asText v) := by
  unfold asText
  split
  · exact (within_objectText R hv).next fun _ => .give trivial
  · exact .give hv

theorem within_textBinary (op : BinaryOp) (hv : r.Has v) (hw : r.Has w) :
    Within r ev inside r.Has (textBinary op v w) := by
  unfold textBinary
  split
  · exact .give trivial
  · refine (within_asText R hv).bind fun l hl => (within_asText R hw).bind fun k hk => ?_
    exact within_plainBinary R op hl hk

theorem within_objectBinary (op : BinaryOp) (hi : r.object i) (hw : r.Has w) :
    Within r ev inside r.Has (objectBinary op i w) := by
  have hargs : ∀ v ∈ [w], r.Has v := List.forall_mem_singleton.mpr hw
  refine (Within.heap fun h H => H.cls hi).bind fun cls hcls => ?_
  split
  · rename_i m hm
    exact within_callMethod R hi (hcls.method hm) hargs
  · split
    · have hanswer (equal : Bool) : Within r ev inside r.Has (pure (.bool (equal != (op == .notEq)))) :=
        .give trivial
      dsimp only
      split
      · rename_i m hm
        refine (within_callMethod R hi (hcls.method hm) hargs).bind fun u hu => ?_
        exact (within_toBool R hu).next hanswer
      · exact hanswer _
    · exact (Within.plain _).next fun _ => .fail _

theorem within_applyBinary (op : BinaryOp) (hv : r.Has v) (hw : r.Has w) :
    Within r ev inside r.Has (applyBinary op v w) := by
  unfold applyBinary
  split
  · exact within_textBinary R op hv hw
  · exact within_textBinary R op hv hw
  · exact within_objectBinary R op hv hw
  · exact within_plainBinary R op hv hw

theorem within_applyUnary (op : UnaryOp) (hv : r.Has v) : Within r ev inside r.Has (applyUnary op v) := by
  unfold applyUnary
  split
  · refine (Within.heap fun h H => H.cls hv).bind fun cls hcls => ?_
    split
    · rename_i m hm
      exact within_callMethod R hv (hcls.method hm) (List.forall_mem_nil _)
    · split
      · exact (within_toBool R hv).next fun _ => .give trivial
      · exact .fail _
  · have hread : Within r ev inside (fun o => ∀ u, o = .ok u → r.Has u) (heap fun h => h.evaluateUnary op v) :=
      .heap fun h H u hu => Reach.has_primitive (Heap.primitive_unary hu)
    exact hread.bind fun o ho => .ofExcept ho

theorem within_evalBinary (hc : r.scope c) (op : BinaryOp) (left right : Node) :
    Within r ev True r.Has (evalBinary op left right c) := by
  unfold evalBinary
  split
  · refine (R.eval left hc).bind fun v hv => (within_toBool R hv).next fun a => ?_
    split
    · exact .give trivial
    · refine (R.eval right hc).bind fun w hw => ?_
      exact (within_toBool R hw).next fun _ => .give trivial
  · refine (R.eval left hc).bind fun v hv => (R.eval right hc).bind fun w hw => ?_
    exact within_applyBinary R op hv hw

/-! ## Lists of nodes and templates -/

theorem within_evalAll (hc : r.scope c) (es : List Node) :
    Within r ev True (fun vs => ∀ v ∈ vs, r.Has v) (evalAll c es) := by
  induction es with
  | nil => exact .give nofun
  | cons e es ih =>
    refine (R.eval e hc).bind fun v hv => ih.bind fun vs hvs => .give ?_
    exact List.forall_mem_cons.mpr ⟨hv, hvs⟩

theorem within_evalEntries (hc : r.scope c) (entries : List (Node × Node)) {m : OrderedMap} (hm : r.HasMap m) :
    Within r ev True r.HasMap (evalEntries c m entries) := by
  induction entries generalizing m with
  | nil => exact .give hm
  | cons entry entries ih =>
    refine (R.eval entry.1 hc).bind fun k hk => (R.eval entry.2 hc).bind fun v hv => ?_
    exact ih (hm.insert hk hv)

omit R in
theorem within_parseExpression (source : String) : Within r ev inside (fun _ => True) (parseExpression source) := by
  refine (Within.asked _).next fun parser => ?_
  split
  · exact .fail _
  · split
    · exact fun s hs _ => ⟨⟨trivial, { hs with }, ⟨.refl _, fun _ h => h, rfl⟩⟩, fun _ _ => rfl⟩
    · exact .raise trivial

theorem within_evalTemplate (hc : r.scope c) (template : String) :
    Within r ev True r.Has (evalTemplate template c) := by
  unfold evalTemplate
  split
  · exact .fail _
  · have hsegment (segment : Segment) : Within r ev True (fun _ => True) (segmentText c segment) := by
      cases segment with
      | text s => exact .give trivial
      | source source =>
        refine (within_parseExpression source).next fun e => ?_
        exact (R.eval e hc).bind fun v hv => within_stringify R hv
    exact (Within.mapM fun segment _ => hsegment segment).next fun _ => .give trivial

end Exec
end TreeScript
