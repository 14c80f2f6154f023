import TreeScript.Proofs.Texts

/-
# Two layers of conversions

There are conversions, truth, texts and operators that ask the classes of objects, and such that run no code of the
program at all.  Indices and promotion use the latter, slots and calls the former, and both are to say the same
wherever no class can have a say: about a value in which there is no object and through which no path goes on for
ever (`Heap.Inert`).  Most types are converted to by the one layer through the other, so that the cases to look at are
the truth, the text and the types of objects; operators differ in the texts that they join (`layers_agree`).
-/

namespace TreeScript

open Exec

namespace Heap

variable {h h' : Heap} {v r w : Value} {ty : TypeKind} {cls : String} {k : Halt} {op : BinaryOp} {x : String}

/-- A value through which no path goes on for ever, and in which there is no object. -/
structure Inert (h : Heap) (v : Value) : Prop where
  ends : h.Acyclic v
  objectless : ∀ i, ¬ Leads h.parts v (.object i)

namespace Inert

theorem ne_object (hv : h.Inert v) (i : Nat) : v ≠ .object i := by
  rintro rfl
  exact hv.objectless i .refl

theorem labelled (hv : h.Inert v) : h.Labelled v := fun i hi => absurd hi (hv.objectless i)

theorem has_text (hv : h.Inert v) : ∃ x, h.render v = .ok x := (render_ends_iff h v).mpr hv.ends

theorem has_truth (hv : h.Inert v) : ∃ b, h.truthy? v = some b := by
  cases v with
  | object i => exact absurd rfl (hv.ne_object i)
  | _ => exact ⟨_, rfl⟩

end Inert

/-! ## Conversions without classes -/

/-- A conversion makes a copy of a list or array, or a slot, or nothing. -/
theorem stores_cast (hw : h.cast v ty = .ok (w, h')) :
    h' = h ∨
      (∃ i, (v = .array i ∧ w = .list h.sequences.size ∨ v = .list i ∧ w = .array h.sequences.size) ∧
        h' = (h.newSequence (h.sequence i)).2) ∨
      (w = .ref h.slots.size ∧ h' = (h.newSlot ⟨.any, v, true⟩).2) := by
  unfold cast at hw
  cases hnull : v.isNull with
  | true =>
    rw [hnull] at hw
    cases hw
    exact .inl rfl
  | false =>
    simp only [hnull, Bool.false_eq_true, if_false] at hw
    cases ty with
    | any | void | bool =>
      cases hw
      exact .inl rfl
    | byte | short | char | int | long | float | double =>
      left
      dsimp only at hw
      split at hw <;> cases hw
      rfl
    | map | coroutine | consumer | object cls =>
      left
      cases v <;> cases hw
      rfl
    | string =>
      left
      cases v with
      | str x =>
        cases hw
        rfl
      | _ =>
        dsimp only at hw
        generalize h.render _ = text at hw
        cases text <;> cases hw
        rfl
    | list => cases v <;> cases hw <;> first | exact .inl rfl | exact .inr (.inl ⟨_, .inl ⟨rfl, rfl⟩, rfl⟩)
    | array => cases v <;> cases hw <;> first | exact .inl rfl | exact .inr (.inl ⟨_, .inr ⟨rfl, rfl⟩, rfl⟩)
    | ref => cases v <;> cases hw <;> first | exact .inl rfl | exact .inr (.inr ⟨rfl, rfl⟩)

theorem cast_bool (hnull : v ≠ .null) : h.cast v .bool = .ok (.bool (h.truthy v), h) := by
  cases v <;> first | exact absurd rfl hnull | rfl

theorem cast_string (hnull : v ≠ .null) (hx : h.render v = .ok x) : h.cast v .string = .ok (.str x, h) := by
  cases v with
  | null => exact absurd rfl hnull
  | str y =>
    cases hx
    rfl
  | _ =>
    simp only [cast, Value.isNull, Bool.false_eq_true, if_false, hx]
    rfl

/-- A conversion of what ends is done or fails. -/
theorem cast_ne_halt (hv : h.Acyclic v) (ty : TypeKind) (k : Halt) : h.cast v ty ≠ .error (.halt k) := by
  unfold cast
  cases hnull : v.isNull with
  | true => nofun
  | false =>
    simp only [Bool.false_eq_true, if_false]
    cases ty with
    | string =>
      obtain ⟨x, hx⟩ := (render_ends_iff h v).mpr hv
      cases v <;> simp only [hx] <;> nofun
    | list | array | ref => cases v <;> nofun
    | any | void | bool => nofun
    | byte | short | char | int | long | float | double =>
      dsimp only
      split <;> nofun
    | map | coroutine | consumer | object cls => cases v <;> nofun

/-! ## Operators without classes -/

theorem arithmetic_ne_halt (h : Heap) (op : BinaryOp) (l r : Value) (k : Halt) :
    h.arithmetic op l r ≠ .error (.halt k) := by
  unfold arithmetic
  split
  · rename_i rank _
    cases (do (← h.operands rank l r).binary op : Except EvalError Value) <;> nofun
  · nofun

/-- An operator between operands that end gives something or fails. -/
theorem binary_ne_halt (hv : h.Acyclic v) (hr : h.Acyclic r) (op : BinaryOp) (k : Halt) :
    h.binary op v r ≠ .error (.halt k) := by
  -- the operators that compare for equality say what `valuesEqual` says
  have hequal : ∀ f : Bool → Value, (do return f (← h.valuesEqual v r) : Checked Value) ≠ .error (.halt k) := by
    intro f heq
    have hends := valuesEqual_ends hv hr k
    cases hvr : h.valuesEqual v r with
    | ok b =>
      rw [hvr] at heq
      cases heq
    | error e =>
      rw [hvr] at heq hends
      cases heq
      exact hends rfl
  unfold binary
  split
  · exact hequal _
  · exact hequal _
  · exact hequal _
  · split <;> nofun
  · split <;> nofun
  · split
    · nofun
    · nofun
    · nofun
    · exact arithmetic_ne_halt h _ v r k
  · split
    · nofun
    · exact arithmetic_ne_halt h _ v r k

theorem evaluateBinary_truth {a b : Bool} (hop : op.isShortCircuit = true) (ha : h.truthy? v = some a)
    (hb : h.truthy? r = some b) :
    h.evaluateBinary op v r = .ok (.bool (if op = .and then a && b else a || b)) := by
  have hplain : h.evaluateBinary op v r = h.binary op v r := by
    cases op <;> cases hop <;> rfl
  rw [hplain]
  cases op <;> cases hop <;> simp only [binary, ha, hb]

theorem evaluateBinary_ne_halt (hv : h.Acyclic v) (hr : h.Acyclic r) (op : BinaryOp) (k : Halt) :
    h.evaluateBinary op v r ≠ .error (.halt k) := by
  unfold evaluateBinary
  split
  · obtain ⟨x, hx⟩ := (render_ends_iff h v).mpr hv
    obtain ⟨y, hy⟩ := (render_ends_iff h r).mpr hr
    rw [hx, hy]
    nofun
  · exact binary_ne_halt hv hr op k

end Heap

/-! ## Evaluations -/

namespace Exec

variable {ev : Evaluator} {s t : State} {v l r w : Value} {ty : TypeKind} {x : String} {b : Bool}

theorem toBool_of_truthy? (hb : s.heap.truthy? v = some b) : toBool v ev s = (.value b, s) := by
  unfold toBool
  rw [bind_apply]
  dsimp only [heap]
  rw [hb]
  rfl

/-- The text of a value in which there is no object is the one that needs no code. -/
theorem stringify_inert (hfuel : s.heap.depthBound ≤ ev.fuel) (hv : s.heap.Inert v)
    (hx : s.heap.render v = .ok x) : stringify v ev s = (.value x, s) := by
  rw [stringify_labelled hfuel hv.labelled]
  unfold Heap.render at hx
  cases hrender : s.heap.renderTo s.heap.depthBound v false with
  | none =>
    rw [hrender] at hx
    cases hx
  | some y =>
    rw [hrender] at hx
    cases hx
    rfl

/-- Most types are converted to by the one layer through the other. -/
theorem castValue_eq_makeChecked (hobject : ∀ i, v ≠ .object i) (hbool : ty ≠ .bool) (hstring : ty ≠ .string)
    (hty : ∀ cls, ty ≠ .object cls) : castValue v ty ev s = makeChecked (fun h => h.cast v ty) ev s := by
  cases v with
  | object i => exact absurd rfl (hobject i)
  | _ =>
    cases ty with
    | bool => exact absurd rfl hbool
    | string => exact absurd rfl hstring
    | object cls => exact absurd rfl (hty cls)
    | _ => rfl

/-- Where no class is wanted, the two conversions are one, failures included. -/
theorem castValue_inert (hfuel : s.heap.depthBound ≤ ev.fuel) (hv : s.heap.Inert v) (hnull : v ≠ .null)
    (hty : ∀ cls, ty ≠ .object cls) : castValue v ty ev s = makeChecked (fun h => h.cast v ty) ev s := by
  -- only the truth and the text of a value are asked of other functions in the two layers
  by_cases hbool : ty = .bool
  · subst hbool
    obtain ⟨b, hb⟩ := hv.has_truth
    have htruth : castValue v .bool ev s = (do return Value.bool (← toBool v) : Exec Value) ev s := by
      cases v <;> first | exact absurd rfl hnull | rfl
    rw [htruth, bind_apply, toBool_of_truthy? hb, makeChecked_apply, Heap.cast_bool hnull, Heap.truthy, hb]
    rfl
  · by_cases hstring : ty = .string
    · subst hstring
      obtain ⟨x, hx⟩ := hv.has_text
      have hpos : 0 < ev.fuel := Nat.lt_of_lt_of_le (Nat.succ_pos _) hfuel
      rw [castValue_string hpos hnull, bind_apply, stringify_inert hfuel hv hx, makeChecked_apply,
        Heap.cast_string hnull hx]
      rfl
    · exact castValue_eq_makeChecked hv.ne_object hbool hstring hty

/-- The two conversions are one, or both fail: to the type of a class neither of them converts anything but objects
and null, and they say so each in its own way. -/
theorem castValue_agrees (hfuel : s.heap.depthBound ≤ ev.fuel) (hv : s.heap.Inert v) (ty : TypeKind) :
    castValue v ty ev s = makeChecked (fun h => h.cast v ty) ev s ∨
      (∃ e, castValue v ty ev s = (.signal (.error e), s)) ∧ ∃ e, s.heap.cast v ty = .error (.error e) := by
  by_cases hnull : v = .null
  · subst hnull
    left
    cases ty <;> rfl
  · by_cases hclass : ∃ cls, ty = .object cls
    · obtain ⟨cls, rfl⟩ := hclass
      right
      cases v with
      | null => exact absurd rfl hnull
      | object i => exact absurd rfl (hv.ne_object i)
      | _ => exact ⟨⟨_, rfl⟩, _, rfl⟩
    · left
      exact castValue_inert hfuel hv hnull fun cls heq => hclass ⟨cls, heq⟩

/-- The one layer converts what the other does, and makes in the heap what the other makes. -/
theorem castValue_eq_value_iff (hfuel : s.heap.depthBound ≤ ev.fuel) (hv : s.heap.Inert v) :
    castValue v ty ev s = (.value w, t) ↔ ∃ h, s.heap.cast v ty = .ok (w, h) ∧ t = s.withHeap h := by
  rcases castValue_agrees hfuel hv ty with hsame | ⟨⟨e, he⟩, e', he'⟩
  · rw [hsame, makeChecked_apply]
    rcases s.heap.cast v ty with (e | k) | ⟨u, h⟩ <;> simp [and_assoc, eq_comm]
  · rw [he, he']
    simp

theorem castValue_fails (hfuel : s.heap.depthBound ≤ ev.fuel) (hv : s.heap.Inert v)
    (hnone : ∀ w h, s.heap.cast v ty ≠ .ok (w, h)) : ∃ e, castValue v ty ev s = (.signal (.error e), s) := by
  rcases castValue_agrees hfuel hv ty with hsame | ⟨hfails, _⟩
  · rw [hsame, makeChecked_apply]
    have hends := Heap.cast_ne_halt hv.ends ty
    rcases hcast : s.heap.cast v ty with (e | k) | ⟨u, h⟩
    · exact ⟨e, rfl⟩
    · exact absurd hcast (hends k)
    · exact absurd hcast (hnone u h)
  · exact hfails

theorem enterNode_heap (ev : Evaluator) (s : State) : (enterNode ev s).2.heap = s.heap := by
  rw [enterNode_apply]
  split
  · rfl
  · split <;> rfl

theorem applyUnary_inert (hv : s.heap.Inert v) (op : UnaryOp) :
    applyUnary op v ev s = ofExcept (s.heap.evaluateUnary op v) ev s := by
  cases v with
  | object i => exact absurd rfl (hv.ne_object i)
  | _ => rfl

theorem applyBinary_inert (hfuel : s.heap.depthBound ≤ ev.fuel) (hl : s.heap.Inert l) (hr : s.heap.Inert r)
    (op : BinaryOp) : applyBinary op l r ev s = ofChecked (s.heap.evaluateBinary op l r) ev s := by
  have htext : ¬ ((∃ x, l = .str x) ∧ ∃ j, r = .object j) := fun ⟨_, j, hj⟩ => hr.ne_object j hj
  rw [applyBinary_plain hl.ne_object htext]
  unfold plainBinary Heap.evaluateBinary
  by_cases hjoins : joinsText op l r = true
  · obtain ⟨x, hx⟩ := hl.has_text
    obtain ⟨y, hy⟩ := hr.has_text
    rw [if_pos hjoins, if_pos hjoins, bind_apply, stringify_inert hfuel hl hx]
    dsimp only
    rw [bind_apply, stringify_inert hfuel hr hy, hx, hy]
    rfl
  · rw [if_neg hjoins, if_neg hjoins]
    rfl

theorem ofChecked_state {α : Type} (c : Checked α) : (ofChecked c ev s).2 = s := by
  rcases c with (e | k) | a <;> rfl

theorem ofChecked_outcome {α : Type} (c : Checked α) : (ofChecked c ev s).1 = (ofChecked c ev t).1 := by
  rcases c with (e | k) | a <;> rfl

/-- What an operator makes of two values it makes of them as operands as well, though it may need the left one only. -/
theorem afterLeft_inert {right : Node} {c : Nat} (hfuel : s.heap.depthBound ≤ ev.fuel) (hl : s.heap.Inert l)
    (hr : s.heap.Inert r) (hright : eval right c ev s = (.value r, t)) (hheap : t.heap = s.heap) (op : BinaryOp) :
    (afterLeft op right c l ev s).1 = (ofChecked (s.heap.evaluateBinary op l r) ev s).1 ∧
      (afterLeft op right c l ev s).2.heap = s.heap := by
  unfold afterLeft
  -- an operator that may need the left operand only
  by_cases hop : op.isShortCircuit = true
  · obtain ⟨a, ha⟩ := hl.has_truth
    obtain ⟨b, hb⟩ := hr.has_truth
    have hright' : (eval right c >>= toBool) ev s = (.value b, t) := by
      rw [bind_apply, hright]
      exact toBool_of_truthy? (by rw [hheap, hb])
    rw [if_pos hop, bind_apply, toBool_of_truthy? ha, Heap.evaluateBinary_truth hop ha hb]
    dsimp only
    by_cases hopen : (a == (op == .or)) = true
    · -- the left operand decides
      rw [if_pos hopen]
      refine ⟨?_, rfl⟩
      cases op <;> cases hop <;> cases a <;> first | rfl | cases hopen
    · rw [if_neg hopen, ← bind_assoc, bind_apply, hright']
      refine ⟨?_, hheap⟩
      cases op <;> cases hop <;> cases a <;> first | rfl | exact absurd rfl hopen
  · rw [if_neg hop, bind_apply, hright]
    dsimp only
    rw [← hheap] at hfuel hl hr ⊢
    rw [applyBinary_inert hfuel hl hr, ofChecked_state]
    exact ⟨ofChecked_outcome _, rfl⟩

end Exec

/-- **The two layers agree** wherever no class can have a say.  A value through which no path goes on for ever and in
which there is no object is converted to a type by the one layer if and only if it is by the other, with the same
result: what is kept is the same storage, and a list or array that is copied has the elements that it had; if they
fail, nothing has changed.  Its truth and its text are the same, and so is whatever an operator gives for it, and for
it and another such value, evaluated one before the other.  No node is evaluated: what stands by to evaluate them
makes no difference. -/
theorem layers_agree (ev : Evaluator) {s : State} {v : Value} (hfuel : s.heap.depthBound ≤ ev.fuel)
    (hv : s.heap.Inert v) :
    (∀ ty w t, castValue v ty ev s = (.value w, t) ↔
      ∃ h', s.heap.cast v ty = .ok (w, h') ∧ t = s.withHeap h') ∧
    (∀ ty w h', s.heap.cast v ty = .ok (w, h') → h' = s.heap ∨
      (∃ i, (v = .array i ∧ w = .list s.heap.sequences.size ∨ v = .list i ∧ w = .array s.heap.sequences.size) ∧
        h' = (s.heap.newSequence (s.heap.sequence i)).2) ∨
      (w = .ref s.heap.slots.size ∧ h' = (s.heap.newSlot ⟨.any, v, true⟩).2)) ∧
    (∀ ty, (∀ w h', s.heap.cast v ty ≠ .ok (w, h')) → ∃ e, castValue v ty ev s = (.signal (.error e), s)) ∧
    (∃ b, s.heap.truthy? v = some b ∧ toBool v ev s = (.value b, s)) ∧
    (∃ x, s.heap.render v = .ok x ∧ stringify v ev s = (.value x, s)) ∧
    (∀ op, applyUnary op v ev s = ofExcept (s.heap.evaluateUnary op v) ev s) ∧
    ∀ op r, s.heap.Inert r →
      (∀ k, s.heap.evaluateBinary op v r ≠ .error (.halt k)) ∧
      applyBinary op v r ev s = ofChecked (s.heap.evaluateBinary op v r) ev s ∧
      ∀ left right c s₀ t, eval left c ev s₀ = (.value v, s) → eval right c ev s = (.value r, t) →
        t.heap = s.heap →
          (evalBinary op left right c ev s₀).1 = (ofChecked (s.heap.evaluateBinary op v r) ev s).1 ∧
          (evalBinary op left right c ev s₀).2.heap = s.heap := by
  refine ⟨fun ty w t => castValue_eq_value_iff hfuel hv, fun ty w h' => Heap.stores_cast,
    fun ty => castValue_fails hfuel hv, ?_, ?_, applyUnary_inert hv, fun op r hr =>
      ⟨Heap.evaluateBinary_ne_halt hv.ends hr.ends op, applyBinary_inert hfuel hv hr op, ?_⟩⟩
  · obtain ⟨b, hb⟩ := hv.has_truth
    exact ⟨b, hb, toBool_of_truthy? hb⟩
  · obtain ⟨x, hx⟩ := hv.has_text
    exact ⟨x, hx, stringify_inert hfuel hv hx⟩
  · intro left right c s₀ t hleft hright hheap
    rw [evalBinary_eq, bind_apply, hleft]
    exact afterLeft_inert hfuel hv hr hright hheap op

namespace Host

/-- A session in which a variable holds a list with a number and a text in it. -/
def listing : Host :=
  (Host.empty.serve (fun _ => evaluator 10) [.start bare,
    .evaluate 0 (.declare .list "l" (some (.listLiteral [.literal (.int 1), .literal (.str "a")])))]).2

/-- Where evaluations in the session begin. -/
def listingState : State := ⟨listing.heap, listing.sites, [], listing.sessions.getD 0 (.blank 0 0 bare)⟩

end Host

/-- The list converts to an array that has its elements, and to no number; together with a number it gives a text. -/
theorem layers_agree_list :
    let s₀ := Host.listingState
    let c := s₀.session.root
    let s := (evaluateNode 20 (.var "l") c s₀).2
    let t := (evaluateNode 20 (.literal (.int 2)) c s).2
    s.heap.depthBound ≤ 20 ∧ s.heap.Inert (.list 0) ∧ s.heap.Inert (.int 2) ∧
    eval (.var "l") c (evaluator 20) s₀ = (.value (.list 0), s) ∧
    eval (.literal (.int 2)) c (evaluator 20) s = (.value (.int 2), t) ∧ t.heap = s.heap ∧
    castValue (.list 0) .array (evaluator 20) s =
      (.value (.array 1), s.withHeap (s.heap.newSequence (s.heap.sequence 0)).2) ∧
    (∃ e, castValue (.list 0) .int (evaluator 20) s = (.signal (.error e), s)) ∧
    (evalBinary .add (.var "l") (.literal (.int 2)) c (evaluator 20) s₀).1 = .value (.str "[1,\"a\"]2") := by
  intro s₀ c s t
  have hfuel : s.heap.depthBound ≤ 20 := by decide +kernel
  have helements : s.heap.sequence 0 = #[.int 1, .str "a"] := by decide +kernel
  have hparts : s.heap.parts (.list 0) = [.int 1, .str "a"] := congrArg Array.toList helements
  have hone : s.heap.parts (.int 1) = [] := rfl
  have htext : s.heap.parts (.str "a") = [] := rfl
  have hleaf : ∀ n, s.heap.Inert (.int n) := by
    refine fun n => ⟨EndsWithin.ends (endsWithin_of_nil rfl 0), fun i hi => ?_⟩
    have hclosed : ∀ v ∈ [Value.int n], ∀ w ∈ s.heap.parts v, w ∈ [Value.int n] := by
      intro v hv w hw
      rw [List.mem_singleton.mp hv] at hw
      cases hw
    cases List.mem_singleton.mp (hi.mem hclosed List.mem_cons_self)
  have hlist : s.heap.Inert (.list 0) := by
    refine ⟨EndsWithin.ends (n := 2) (by simp [EndsWithin, hparts, hone, htext]), fun i hi => ?_⟩
    have hclosed : ∀ v ∈ [Value.list 0, .int 1, .str "a"], ∀ w ∈ s.heap.parts v,
        w ∈ [Value.list 0, .int 1, .str "a"] := by
      simp [hparts, hone, htext]
    have hmem := hi.mem hclosed List.mem_cons_self
    simp at hmem
  have hleft : eval (.var "l") c (evaluator 20) s₀ = (.value (.list 0), s) :=
    Prod.ext (Outcome.value?_eq_some.mp (by decide +kernel)) rfl
  have hright : eval (.literal (.int 2)) c (evaluator 20) s = (.value (.int 2), t) :=
    Prod.ext (Outcome.value?_eq_some.mp (by decide +kernel)) rfl
  have hheap : t.heap = s.heap := by
    show ((enterNode >>= fun _ => pure (.int 2) : Exec Value) (evaluator 19) s).2.heap = s.heap
    rw [bind_apply, ← enterNode_heap (evaluator 19) s]
    rcases enterNode (evaluator 19) s with ⟨_ | _ | _, u⟩ <;> rfl
  obtain ⟨hcast, -, hfails, -, -, -, hoperators⟩ := layers_agree (evaluator 20) hfuel hlist
  have hsize : s.heap.sequences.size = 1 := by decide +kernel
  have hsum : s.heap.evaluateBinary .add (.list 0) (.int 2) = .ok (.str "[1,\"a\"]2") := by decide +kernel
  refine ⟨hfuel, hlist, hleaf 2, hleft, hright, hheap, (hcast .array _ _).mpr ⟨_, ?_, rfl⟩, hfails .int ?_, ?_⟩
  · rw [← hsize]
    rfl
  · intro w h' hcast
    cases hcast
  · obtain ⟨-, -, hboth⟩ := hoperators .add _ (hleaf 2)
    rw [(hboth _ _ c s₀ t hleft hright hheap).1, hsum]
    rfl

end TreeScript
