import TreeScript.Proofs.Simulation.Hooks
import TreeScript.Eval.Access
import TreeScript.Eval.Operators
import TreeScript.Eval.Template

/-
# Expressions, side by side

Operators, variables, fields, elements and templates.  What they do besides evaluating their parts is
done by methods and conversions, or runs no code of the program.
-/

namespace TreeScript

/-! ## Elements of heaps that are alike -/

namespace Heap.Alike

variable {h h' : Heap}

theorem placeOf (A : Alike h h') (key : Value) (length : Nat) :
    TreeScript.placeOf h key length = TreeScript.placeOf h' key length := by
  simp only [TreeScript.placeOf, A.typeName]

theorem element (A : Alike h h') (container key : Value) (lenient single : Bool) :
    Exec.element h container key lenient single = Exec.element h' container key lenient single := by
  cases container <;>
    simp only [Exec.element, A.sequence, A.mapAt, A.placeOf, A.render, A.typeName]

end Heap.Alike

namespace Simulation

open Exec

variable {S : Simulation} {ev ev' : Evaluator} {w : S.World}
variable (L : S.Lawful) (R : S.Ready ev ev')

/-! ## Operators -/

section
include L R

theorem agrees_plainBinary (op : BinaryOp) (l r : Value) :
    S.Agrees ev ev' w (plainBinary op l r) (plainBinary op l r) := by
  unfold plainBinary
  cases joinsText op l r with
  | true =>
    refine .bind L.toOrdered (agrees_stringify L R l) fun w₁ left _ => ?_
    exact .bind L.toOrdered (agrees_stringify L R r) fun w₂ right _ => .pure L.toOrdered _
  | false =>
    refine .bind L.toOrdered (.heap L fun A => A.binary op l r) fun w₁ v _ => ?_
    exact .ofChecked L.toOrdered v

theorem agrees_asText (v : Value) : S.Agrees ev ev' w (asText v) (asText v) := by
  cases v with
  | object i => exact .bind L.toOrdered (agrees_objectText L R i) fun _ s _ => .pure L.toOrdered _
  | _ => exact .pure L.toOrdered _

theorem agrees_textBinary (op : BinaryOp) (l r : Value) :
    S.Agrees ev ev' w (textBinary op l r) (textBinary op l r) := by
  unfold textBinary
  split
  · exact .pure L.toOrdered _
  · refine .bind L.toOrdered (agrees_asText L R l) fun w₁ l _ => ?_
    refine .bind L.toOrdered (agrees_asText L R r) fun w₂ r _ => ?_
    exact agrees_plainBinary L R op l r

theorem agrees_objectBinary (op : BinaryOp) (i : Nat) (r : Value) :
    S.Agrees ev ev' w (objectBinary op i r) (objectBinary op i r) := by
  refine .bindOn L.toOrdered (.classOf L i) fun w₁ cls _ hknown => ?_
  cases hop : cls.method? op.symbol 1 with
  | some m => exact agrees_callMethod L R (hknown op.symbol 1 m hop) m [r]
  | none =>
    dsimp only
    split
    · cases heq : cls.method? BinaryOp.eq.symbol 1 with
      | some m =>
        have hi := hknown BinaryOp.eq.symbol 1 m heq
        refine .bind L.toOrdered (agrees_callMethod L R hi m [r]) fun w₂ v _ => ?_
        exact .bind L.toOrdered (agrees_toBool L R v) fun _ _ _ => .pure L.toOrdered _
      | none => exact .bind L.toOrdered (.pure L.toOrdered _) fun _ _ _ => .pure L.toOrdered _
    · exact .bind L.toOrdered (.heap L fun A => A.typeName r) fun _ _ _ => .fail L.toOrdered _

theorem agrees_applyBinary (op : BinaryOp) (l r : Value) :
    S.Agrees ev ev' w (applyBinary op l r) (applyBinary op l r) := by
  unfold applyBinary
  split
  · exact agrees_textBinary L R op _ _
  · exact agrees_textBinary L R op _ _
  · exact agrees_objectBinary L R op _ _
  · exact agrees_plainBinary L R op l r

theorem agrees_applyUnary (op : UnaryOp) (v : Value) :
    S.Agrees ev ev' w (applyUnary op v) (applyUnary op v) := by
  cases v with
  | object i =>
    refine .bindOn L.toOrdered (.classOf L i) fun w₁ cls _ hknown => ?_
    cases hop : cls.method? op.symbol 0 with
    | some m => exact agrees_callMethod L R (hknown op.symbol 0 m hop) m []
    | none =>
      dsimp only
      split
      · exact .bind L.toOrdered (agrees_toBool L R _) fun _ b _ => .pure L.toOrdered _
      · exact .fail L.toOrdered _
  | _ =>
    refine .bind L.toOrdered (.heap L fun A => A.evaluateUnary op _) fun w₁ r _ => ?_
    exact .ofExcept L.toOrdered r

end

/-! ## Variables -/

section
include L R

omit R in
theorem agrees_declareDefault {c c' : Nat} (hc : S.scope w c c') (ty : TypeKind) (x : String) :
    S.Agrees ev ev' w (evalDeclare ty x none c) (evalDeclare ty x none c') := by
  have hdefault : S.Agrees ev ev' w (make fun h => h.defaultValue ty)
      (make fun h => h.defaultValue ty) := .make L (Heap.makes_defaultValue ty)
  refine .bindOn L.toOrdered (.suiting L hdefault (gives_defaultValue ty)) fun w₁ v h hv => ?_
  exact .bind L.toOrdered (.declare L (L.scope_mono h hc) x hv) fun _ _ _ => .pure L.toOrdered v

omit R in
/-- The slot that a name is bound to. -/
theorem agrees_lookup {c c' : Nat} (hc : S.scope w c c') (x : String) :
    S.AgreesOn ev ev' w (fun w' slot => ∀ i, slot = some i → ∃ ty, S.typed w' i ty)
      (heap fun h => h.lookup c x) (heap fun h => h.lookup c' x) := by
  refine .gives L (P := fun slot t => slot = t.heap.lookup c x)
    (.gets L.toOrdered fun hs => L.lookup x hs hc) ?_ ?_
  · intro ev s slot t h
    cases h
    rfl
  · rintro w' _ t rfl hlearnt i hi
    exact hlearnt.typed hi

/-- What is written to a slot is converted to the slot's type. -/
theorem agrees_store {slot : Nat} (hslot : ∃ ty, S.typed w slot ty) (x : String) (v : Value) :
    S.Agrees ev ev' w (store slot x v) (store slot x v) := by
  obtain ⟨_, hslot⟩ := hslot
  refine .bindOn L.toOrdered (.slotType L hslot) fun w₁ ty h₁ hty => ?_
  refine .bindOn L.toOrdered (converts_coerce L R w₁ v ty) fun w₂ v h₂ hv => ?_
  have hty₂ := L.typed_mono h₂ hty
  refine .bindOn L.toOrdered (.isMutable L hty₂) fun w₃ isMutable h₃ hwritable => ?_
  cases isMutable with
  | true =>
    exact .bind L.toOrdered
      (.setValue L (L.typed_mono h₃ hty₂) (hwritable rfl) (L.suits_mono h₃ hv)) fun _ _ _ =>
        .pure L.toOrdered v
  | false => exact .fail L.toOrdered _

/-! ## Fields -/

omit R in
/-- The slot that a name is bound to among the fields of an object. -/
theorem agrees_lookupField (i : Nat) (x : String) :
    S.AgreesOn ev ev' w (fun w' slot => ∀ j, slot = some j → ∃ ty, S.typed w' j ty)
      (heap fun h => h.lookupLocal (h.object i).fields x)
      (heap fun h => h.lookupLocal (h.object i).fields x) := by
  refine .gives L (P := fun slot t => slot = t.heap.lookupLocal (t.heap.object i).fields x)
    (.gets L.toOrdered fun hs => L.lookupLocal x hs (L.scope_of_pinned (L.fields i hs))) ?_ ?_
  · intro ev s slot t h
    cases h
    rfl
  · rintro w' _ t rfl hlearnt j hj
    exact hlearnt.typedLocal hj

omit R in
theorem agrees_fieldSlot (v : Value) (x : String) :
    S.AgreesOn ev ev' w (fun w' slot => ∃ ty, S.typed w' slot ty) (fieldSlot v x)
      (fieldSlot v x) := by
  have hfailure : ∀ w, S.AgreesOn ev ev' w (fun w' slot => ∃ ty, S.typed w' slot ty)
      (do fail (.undefinedField x (← heap fun h => h.typeName v)) : Exec Nat)
      (do fail (.undefinedField x (← heap fun h => h.typeName v))) := fun w =>
    .bind L.toOrdered (.heap L fun A => A.typeName v) fun _ _ _ => .fail L.toOrdered _
  cases v with
  | object i =>
    refine .bindOn L.toOrdered (agrees_lookupField L i x) fun w₁ slot _ hslot => ?_
    cases slot with
    | some slot => exact .give L.toOrdered ⟨rfl, hslot slot rfl⟩
    | none => exact hfailure w₁
  | _ => exact hfailure w

/-! ## Elements -/

theorem agrees_walk (lenient single : Bool) (v : Value) (keys : List Value) :
    S.Agrees ev ev' w (walk lenient single v keys) (walk lenient single v keys) := by
  induction keys generalizing w v with
  | nil =>
    rw [walk]
    exact .pure L.toOrdered v
  | cons key rest ih =>
    cases v with
    | object i =>
      rw [walk]
      · refine .bind L.toOrdered (agrees_newList L _) fun w₁ keys _ => ?_
        exact agrees_callNamedMethod L R i "collection.get" [keys]
      · exact fun h => nomatch h
    | _ =>
      refine .bind L.toOrdered (.heap L fun A => A.element _ key _ single) fun w₁ r _ => ?_
      exact .bind L.toOrdered (.ofChecked L.toOrdered r) fun w₂ v _ => ih v

theorem agrees_indexGet (v : Value) (keys : List Value) :
    S.Agrees ev ev' w (indexGet v keys) (indexGet v keys) :=
  agrees_walk L R true _ v keys

omit R in
theorem agrees_isHeld (container : Value) :
    S.Agrees ev ev' w (isHeld container) (isHeld container) :=
  .gets L.toOrdered fun hs => by rw [L.held hs]

theorem agrees_setElement (container key v : Value) :
    S.Agrees ev ev' w (setElement container key v) (setElement container key v) := by
  have hwrite : ∀ (w : S.World) {f : Heap → Heap}, Heap.Writes f → ∀ isHeld : Bool,
      S.Agrees ev ev' w
        (if isHeld then halt .heldContainer else do modifyHeap f; return v : Exec Value)
        (if isHeld then halt .heldContainer else do modifyHeap f; return v) := by
    intro w f hf isHeld
    cases isHeld with
    | true => exact .halt L.toOrdered .heldContainer
    | false =>
      exact .bind L.toOrdered (.modifyHeap L hf) fun _ _ _ => .pure L.toOrdered v
  have hsequence : ∀ i, S.Agrees ev ev' w
      (do
        let place ← ofExcept (← heap fun h => placeOf h key (h.sequence i).size)
        if ← isHeld container then halt .heldContainer
        else
          modifyHeap fun h => h.setElement i place v
          return v : Exec Value)
      (do
        let place ← ofExcept (← heap fun h => placeOf h key (h.sequence i).size)
        if ← isHeld container then halt .heldContainer
        else
          modifyHeap fun h => h.setElement i place v
          return v) := by
    intro i
    refine .bind L.toOrdered (.heap L fun A => ?_) fun w₁ r _ => ?_
    · rw [A.placeOf, A.sequence]
    · refine .bind L.toOrdered (.ofExcept L.toOrdered r) fun w₂ place _ => ?_
      refine .bind L.toOrdered (agrees_isHeld L container) fun w₃ b _ => ?_
      exact hwrite w₃ (Heap.writes_setElement i place v) b
  cases container with
  | list i | array i => exact hsequence i
  | map i =>
    refine .bind L.toOrdered (agrees_isHeld L _) fun w₁ b _ => ?_
    exact hwrite w₁ (Heap.writes_setEntry i key v) b
  | object i =>
    refine .bind L.toOrdered (agrees_newList L [key]) fun w₁ keys _ => ?_
    exact agrees_callNamedMethod L R i "collection.set" [keys, v]
  | _ => exact agrees_typeMismatch L _ _

theorem agrees_indexSet (v : Value) (keys : List Value) (new : Value) :
    S.Agrees ev ev' w (indexSet v keys new) (indexSet v keys new) := by
  cases v with
  | object i =>
    refine .bind L.toOrdered (agrees_newList L keys) fun w₁ keys _ => ?_
    exact agrees_callNamedMethod L R i "collection.set" [keys, new]
  | _ =>
    unfold indexSet
    dsimp only
    cases keys.getLast? with
    | none => exact .fail L.toOrdered _
    | some last =>
      refine .bind L.toOrdered (agrees_walk L R false _ _ keys.dropLast) fun w₁ container _ => ?_
      exact agrees_setElement L R container last new

/-! ## Templates -/

omit R in
/-- What a template's expression is read as may be evaluated. -/
theorem run_parseExpression {template : String} (ht : S.fits w (.template template))
    {segments : List Segment} (hsegments : Template.segments? template = some segments)
    {source : String} (hsource : .source source ∈ segments) :
    S.Run ev ev' w (fun w' e e' => e = e' ∧ S.fits w' e) (parseExpression source)
      (parseExpression source) := by
  intro s s' hs
  have hparser := L.parser hs
  have hsites := L.sites hs
  simp only [parseExpression, bind_apply, session, ← hparser]
  cases hp : s.session.parser? with
  | none => exact .signal (.error _ (L.unwound_of_le (L.le_refl w))) hs
  | some parse =>
    dsimp only
    cases he : parse source with
    | error message => exact .signal (.error _ (L.unwound_of_le (L.le_refl w))) hs
    | ok e =>
      dsimp only
      rw [← hsites]
      have hread : Template.Expression parse template e := ⟨segments, source, hsegments, hsource, he⟩
      refine .value (L.le_refl w) ?_ ⟨rfl, L.parsed s.sites.next hs ht hp hread⟩
      have hreserve := L.reserve (e.numbered s.sites.next).2 hs
      rw [← hsites] at hreserve
      exact hreserve

theorem agrees_segmentText {c c' : Nat} (hc : S.scope w c c') {template : String}
    (ht : S.fits w (.template template)) {segments : List Segment}
    (hsegments : Template.segments? template = some segments) {segment : Segment}
    (hsegment : segment ∈ segments) :
    S.Agrees ev ev' w (segmentText c segment) (segmentText c' segment) := by
  cases segment with
  | text s => exact .pure L.toOrdered s
  | source source =>
    refine .seq L.toOrdered (run_parseExpression L ht hsegments hsegment) fun w₁ e e' h he => ?_
    obtain ⟨rfl, hfits⟩ := he
    refine .bind L.toOrdered (R.eval hfits (L.scope_mono h hc)) fun w₂ v _ => ?_
    exact agrees_stringify L R v

theorem agrees_evalTemplate {c c' : Nat} (hc : S.scope w c c') {template : String}
    (ht : S.fits w (.template template)) :
    S.Agrees ev ev' w (evalTemplate template c) (evalTemplate template c') := by
  unfold evalTemplate
  cases hsegments : Template.segments? template with
  | none => exact .fail L.toOrdered _
  | some segments =>
    refine .bind L.toOrdered ?_ fun w₁ texts _ => .pure L.toOrdered _
    refine .mapM L.toOrdered _ _ segments fun w₁ h segment hsegment => ?_
    exact agrees_segmentText L R (L.scope_mono h hc) (L.fits_mono (L.unwound_of_le h) ht) hsegments
      hsegment

end
end Simulation
end TreeScript
