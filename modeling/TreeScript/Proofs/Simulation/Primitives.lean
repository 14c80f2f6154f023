import TreeScript.Proofs.Simulation.Lawful

/-
# Primitive evaluations

The two sides of a lawful simulation agree on what reads and writes the state, on the brackets around
calls, and on the boundaries.  Each lemma here is about one definition of `TreeScript.Eval.Exec`; the
constructs of the language are put together from them.
-/

namespace TreeScript
namespace Simulation

open Exec

variable {S : Simulation} {ev ev' : Evaluator} {α β γ : Type} {w : S.World}

/-! ## Ends -/

/-- What changes failures alone keeps ends alike. -/
theorem Ends.onErrors {A : S.World → α → β → Prop} {p : Outcome α × State} {q : Outcome β × State}
    (f : EvalError → EvalError) (h : S.Ends w A p q) :
    S.Ends w A (Exec.onErrors f p.1, p.2) (Exec.onErrors f q.1, q.2) := by
  cases h with
  | value hle hrel hA => exact .value hle hrel hA
  | signal hg hrel =>
    cases hg with
    | error e h => exact .signal (.error (f e) h) hrel
    | breakLoop v h => exact .signal (.breakLoop v h) hrel
    | continueLoop h => exact .signal (.continueLoop h) hrel
    | yieldValue v h hway => exact .signal (.yieldValue v h hway) hrel
    | returnValue v h => exact .signal (.returnValue v h) hrel
    | throwValue v h => exact .signal (.throwValue v h) hrel
  | halted k hw hrel => exact .halted k hw hrel
  | stopped t r hlax => exact .stopped t _ hlax

/-- What every world allows to do to a state may be done at the end. -/
theorem Ends.state {A : S.World → α → β → Prop} {p : Outcome α × State} {q : Outcome β × State}
    {f g : State → State} (hfg : ∀ {w' t t'}, S.rel w' t t' → S.rel w' (f t) (g t'))
    (h : S.Ends w A p q) : S.Ends w A (p.1, f p.2) (q.1, g q.2) := by
  cases h with
  | value hle hrel hA => exact .value hle (hfg hrel) hA
  | signal hg hrel => exact .signal hg (hfg hrel)
  | halted k hw hrel => exact .halted k hw (hfg hrel)
  | stopped t r hlax => exact .stopped _ _ hlax

/-- A body that cannot leave its scope early may settle. -/
theorem Ends.settled (O : S.Ordered) {p q : Outcome Value × State} (hw : S.closed w)
    (h : S.Ends w (fun _ a b => a = b) p q) :
    S.Ends w (fun _ a b => a = b) (Exec.settled p.1, p.2) (Exec.settled q.1, q.2) := by
  cases h with
  | value hle hrel hA => exact .value hle hrel hA
  | signal hg hrel =>
    cases hg with
    | error e h => exact .signal (.error e h) hrel
    | throwValue v h => exact .signal (.throwValue v h) hrel
    | returnValue v h => exact .value (O.le_of_closed hw h) hrel rfl
    | breakLoop v h => exact .value h hrel rfl
    | continueLoop h => exact .value h hrel rfl
    | yieldValue v h _ => exact .value h hrel rfl
  | halted k hw hrel => exact .halted k hw hrel
  | stopped t r hlax => exact .stopped t _ hlax

/-- What a body ends with says alike how its round ends. -/
theorem Ends.roundEnd {A : S.World → Value → Value → Prop} {p q : Outcome Value × State}
    (h : S.Ends w A p q) :
    S.Ends w (fun _ a b => a = b) (Exec.roundEnd p.1, p.2) (Exec.roundEnd q.1, q.2) := by
  cases h with
  | value hle hrel _ => exact .value hle hrel rfl
  | signal hg hrel =>
    cases hg with
    | breakLoop v h => exact .value h hrel rfl
    | continueLoop h => exact .value h hrel rfl
    | yieldValue v h hway => exact .signal (.yieldValue v h hway) hrel
    | error e h => exact .signal (.error e h) hrel
    | returnValue v h => exact .signal (.returnValue v h) hrel
    | throwValue v h => exact .signal (.throwValue v h) hrel
  | halted k h hrel => exact .halted k h hrel
  | stopped t _ hlax => exact .stopped t _ hlax

/-- A `yield` may leave statements of the two sides that add frames which are alike. -/
theorem Ends.passedBy {A : S.World → Value → Value → Prop} {p q : Outcome Value × State}
    {f f' : ResumeFrame}
    (hway : ∀ {w' fs fs'}, S.le w w' → S.way w' fs fs' → S.way w' (f :: fs) (f' :: fs'))
    (h : S.Ends w A p q) : S.Ends w A (Exec.passedBy f p.1, p.2) (Exec.passedBy f' q.1, q.2) := by
  cases h with
  | value hle hrel hA => exact .value hle hrel hA
  | signal hg hrel =>
    cases hg with
    | yieldValue v h hfs => exact .signal (.yieldValue v h (hway h hfs)) hrel
    | error e h => exact .signal (.error e h) hrel
    | breakLoop v h => exact .signal (.breakLoop v h) hrel
    | continueLoop h => exact .signal (.continueLoop h) hrel
    | returnValue v h => exact .signal (.returnValue v h) hrel
    | throwValue v h => exact .signal (.throwValue v h) hrel
  | halted k h hrel => exact .halted k h hrel
  | stopped t _ hlax => exact .stopped t _ hlax

/-- The most recent call ends alike, where the two sides have the same live calls and may have any. -/
theorem Ends.endCall {A : S.World → α → β → Prop} {p : Outcome α × State} {q : Outcome β × State}
    (hcalls : ∀ {w s s'}, S.rel w s s' → s.session.calls = s'.session.calls)
    (hwith : ∀ {w s s'} (calls), S.rel w s s' → S.rel w (s.withCalls calls) (s'.withCalls calls))
    (h : S.Ends w A p q) : S.Ends w A (Exec.endCall p) (Exec.endCall q) := by
  have hpop : ∀ {w' t t'}, S.rel w' t t' →
      S.rel w' (t.withCalls t.session.calls.pop) (t'.withCalls t'.session.calls.pop) := by
    intro w' t t' ht
    rw [hcalls ht]
    exact hwith _ ht
  cases h with
  | value hle hrel hA => exact .value hle (hpop hrel) hA
  | @signal w' g g' t t' hg hrel =>
    have hattach : t'.session.calls.attach = t.session.calls.attach := by rw [hcalls hrel]
    show S.Ends w A (Exec.onErrors t.session.calls.attach (.signal g), _)
      (Exec.onErrors t'.session.calls.attach (.signal g'), _)
    rw [hattach]
    exact ((Ends.signal hg hrel).onErrors _).state hpop
  | halted k hw hrel => exact .halted k hw (hpop hrel)
  | stopped t r hlax => exact .stopped _ _ hlax

namespace Run

/-! ## Reading -/

protected theorem gets (O : S.Ordered) {f g : State → α} (h : ∀ {s s'}, S.rel w s s' → f s = g s') :
    S.Agrees ev ev' w (gets f) (gets g) := by
  intro s s' hs
  exact .value (O.le_refl w) hs (h hs)

protected theorem session (O : S.Ordered) {f g : Session → α}
    (h : ∀ {s s' : State}, S.rel w s s' → f s.session = g s'.session) :
    S.Agrees ev ev' w (session f) (session g) :=
  .gets O h

variable (L : S.Lawful)
include L

protected theorem heap {f : Heap → α} (hf : ∀ {h h' : Heap}, h.Alike h' → f h = f h') :
    S.Agrees ev ev' w (heap f) (heap f) :=
  .gets L.toOrdered fun hs => hf (L.alike hs)

protected theorem fuel (R : S.Ready ev ev') : S.Agrees ev ev' w fuel fuel := by
  intro s s' hs
  exact .value (L.le_refl w) hs R.fuel

protected theorem entering (R : S.Ready ev ev') (ps : List Param) (args : List Value) :
    S.Agrees ev ev' w (entering ps args) (entering ps args) := by
  intro s s' hs
  show S.Ends w _ (ev.trace ps args s) (ev'.trace ps args s')
  rw [R.trace, R.trace']
  exact .value (L.le_refl w) hs rfl

protected theorem read {c c' : Nat} (hc : S.scope w c c') (x : String) :
    S.Agrees ev ev' w (heap fun h => h.read c x) (heap fun h => h.read c' x) := by
  refine .gets L.toOrdered fun {s s'} hs => ?_
  have hvalue : s.heap.valueAt = s'.heap.valueAt := by
    funext i
    exact (L.alike hs).valueAt i
  simp only [Heap.read, L.lookup x hs hc, hvalue]

/-! ## Writing -/

protected theorem make {f : Heap → α × Heap} (hf : Heap.Makes f) : S.Agrees ev ev' w (make f) (make f) := by
  intro s s' hs
  obtain ⟨a, st, hst, h, h'⟩ := hf (L.alike hs)
  show S.Ends w _ (.value (f s.heap).1, s.withHeap (f s.heap).2)
    (.value (f s'.heap).1, s'.withHeap (f s'.heap).2)
  rw [h, h']
  exact .value (L.le_refl w) (L.withStores hs hst) rfl

protected theorem modifyHeap {f : Heap → Heap} (hf : Heap.Writes f) :
    S.Agrees ev ev' w (modifyHeap f) (modifyHeap f) := by
  intro s s' hs
  obtain ⟨st, hst, h, h'⟩ := hf (L.alike hs)
  show S.Ends w _ (.value (), s.withHeap (f s.heap)) (.value (), s'.withHeap (f s'.heap))
  rw [h, h']
  exact .value (L.le_refl w) (L.withStores hs hst) rfl

protected theorem makeChecked {f : Heap → Checked (α × Heap)} (hf : Heap.MakesChecked f) :
    S.Agrees ev ev' w (makeChecked f) (makeChecked f) := by
  intro s s' hs
  rw [makeChecked_apply, makeChecked_apply]
  rcases hf (L.alike hs) with ⟨e, h, h'⟩ | ⟨a, st, hst, h, h'⟩
  · rw [h, h']
    cases e with
    | error e => exact .signal (.error e (L.unwound_of_le (L.le_refl w))) hs
    | halt k => exact .halted k (L.unwound_of_le (L.le_refl w)) hs
  · rw [h, h']
    exact .value (L.le_refl w) (L.withStores hs hst) rfl

protected theorem declareSlot {c c' : Nat} (hc : S.scope w c c') (x : String) {slot : Slot}
    (hslot : S.suits w slot.type slot.value) :
    S.Agrees ev ev' w (modifyHeap fun h => h.declareSlot c x slot)
      (modifyHeap fun h => h.declareSlot c' x slot) := by
  intro s s' hs
  exact .value (L.le_refl w) (L.declareSlot x hs hc hslot) rfl

protected theorem declare {c c' : Nat} (hc : S.scope w c c') (x : String) {ty : TypeKind} {v : Value}
    (hv : S.suits w ty v) :
    S.Agrees ev ev' w (modifyHeap fun h => h.declare c x ty v)
      (modifyHeap fun h => h.declare c' x ty v) :=
  have hslot : S.suits w (Slot.mk ty v true).type (Slot.mk ty v true).value := hv
  .declareSlot L hc x hslot

protected theorem modifySession {f g : Session → Session}
    (h : ∀ {s s' : State}, S.rel w s s' →
      S.rel w (s.withSession (f s.session)) (s'.withSession (g s'.session))) :
    S.Agrees ev ev' w (modifySession f) (modifySession g) := by
  intro s s' hs
  exact .value (L.le_refl w) (h hs) rfl

end Run

/-! ## Types -/

namespace Run

variable (L : S.Lawful)
include L

/-- What is so of the value and the heap in which it is given, and what it shows, is known. -/
protected theorem gives {B : S.World → α → Prop} {P : α → State → Prop} {x y : Exec α}
    (h : S.Agrees ev ev' w x y) (hx : Gives P x)
    (hB : ∀ w' a t, P a t → S.Learnt w' t.heap → B w' a) : S.AgreesOn ev ev' w B x y := by
  intro s s' hs
  have hends := h s s' hs
  have hgives := hx ev s
  generalize x ev s = p at hends hgives ⊢
  generalize y ev' s' = q at hends ⊢
  cases hends with
  | @value w' a b t t' hle hrel hab =>
    obtain ⟨w'', hle', hrel', hlearnt⟩ := L.learn hrel
    exact .value (L.le_trans hle hle') hrel' ⟨hab, hB w'' a t (hgives a t rfl) hlearnt⟩
  | signal hg hrel => exact .signal hg hrel
  | halted k hw hrel => exact .halted k hw hrel
  | stopped t r hlax => exact .stopped _ _ hlax

/-- An evaluation whose values suit a type. -/
protected theorem suiting {ty : TypeKind} {x y : Exec Value} (h : S.Agrees ev ev' w x y)
    (hx : Gives (Suiting ty) x) : S.AgreesOn ev ev' w (fun w' v => S.suits w' ty v) x y :=
  .gives L h hx fun _ _ _ hsuits hlearnt => hlearnt.suits hsuits

/-- The class of an object; if it has a method, the object is known. -/
protected theorem classOf (i : Nat) :
    S.AgreesOn ev ev' w
      (fun w' cls => ∀ name argc m, cls.method? name argc = some m → S.Known w' i)
      (heap fun h => h.classOf i) (heap fun h => h.classOf i) := by
  refine .gives L (P := fun a t => a = t.heap.classOf i) (.heap L fun A => A.classOf i) ?_ ?_
  · intro ev s a t ha
    cases ha
    rfl
  · rintro w' _ t rfl hlearnt name argc m hm
    exact ⟨_, hlearnt.suits (Heap.suits_of_method? hm)⟩

/-- A method of an object; if there is one, the object is known. -/
protected theorem method? (i : Nat) (name : String) (argc : Nat) :
    S.AgreesOn ev ev' w (fun w' m? => ∀ m, m? = some m → S.Known w' i)
      (heap fun h => (h.classOf i).method? name argc)
      (heap fun h => (h.classOf i).method? name argc) := by
  refine .gives L (P := fun a t => a = (t.heap.classOf i).method? name argc)
    (.heap L fun A => congrArg (ClassDef.method? · name argc) (A.classOf i)) ?_ ?_
  · intro ev s a t ha
    cases ha
    rfl
  · rintro w' _ t rfl hlearnt m hm
    exact ⟨_, hlearnt.suits (Heap.suits_of_method? hm)⟩

/-- The type of a slot that is known. -/
protected theorem slotType {i : Nat} {ty : TypeKind} (hi : S.typed w i ty) :
    S.AgreesOn ev ev' w (fun w' ty => S.typed w' i ty) (heap fun h => (h.slot i).type)
      (heap fun h => (h.slot i).type) := by
  intro s s' hs
  exact .value (L.le_refl w) hs ⟨congrArg Slot.type ((L.alike hs).slot i), L.typed_slot hs hi⟩

/-- Whether a slot that is known may be written to. -/
protected theorem isMutable {i : Nat} {ty : TypeKind} (hi : S.typed w i ty) :
    S.AgreesOn ev ev' w (fun w' b => b = true → S.writable w' i)
      (heap fun h => (h.slot i).isMutable) (heap fun h => (h.slot i).isMutable) := by
  intro s s' hs
  exact .value (L.le_refl w) hs
    ⟨congrArg Slot.isMutable ((L.alike hs).slot i), L.writable_slot hs hi⟩

protected theorem setValue {i : Nat} {ty : TypeKind} {v : Value} (hi : S.typed w i ty)
    (hwritable : S.writable w i) (hv : S.suits w ty v) :
    S.Agrees ev ev' w (modifyHeap fun h => h.setValue i v) (modifyHeap fun h => h.setValue i v) := by
  intro s s' hs
  exact .value (L.le_refl w) (L.setValue hs hi hwritable hv) rfl

end Run

/-! ## Scopes -/

namespace Run

variable (L : S.Lawful)
include L

/-- A new scope is related; it may be held in the heap if the scope around it may. -/
protected theorem newScope {c c' : Nat} (hc : S.scope w c c') :
    S.Run ev ev' w (fun w' a b => S.scope w' a b ∧ (S.pinned w c c' → S.pinned w' a b))
      (make fun h => h.newScope c) (make fun h => h.newScope c') := by
  intro s s' hs
  obtain ⟨w', hle, hscope, hpinned, hrel⟩ := L.newScope hs hc
  exact .value hle hrel ⟨hscope, hpinned⟩

/-- A new scope that binds a name. -/
protected theorem newScopeWith {c c' : Nat} (hc : S.scope w c c') (x : String) {ty : TypeKind}
    {v : Value} (hv : S.suits w ty v) :
    S.Run ev ev' w (fun w' a b => S.scope w' a b ∧ (S.pinned w c c' → S.pinned w' a b))
      (make fun h =>
        let (inner, h) := h.newScope c
        (inner, h.declare inner x ty v))
      (make fun h =>
        let (inner, h) := h.newScope c'
        (inner, h.declare inner x ty v)) := by
  have heq : ∀ c : Nat, (make fun h =>
      let (inner, h) := h.newScope c
      (inner, h.declare inner x ty v) : Exec Nat) =
      (do
        let inner ← make fun h => h.newScope c
        modifyHeap fun h => h.declare inner x ty v
        return inner) := fun _ => rfl
  rw [heq, heq]
  refine .seq L.toOrdered (.newScope L hc) fun w₁ a b h₁ hab => ?_
  refine .bind L.toOrdered (.declare L hab.1 x (L.suits_mono h₁ hv)) fun w₂ _ h₂ => ?_
  refine .give L.toOrdered ⟨L.scope_mono h₂ hab.1, fun hp => ?_⟩
  exact L.pinned_mono (L.unwound_of_le h₂) (hab.2 hp)

protected theorem root : S.Run ev ev' w (fun w' a b => S.pinned w' a b) (session (·.root))
    (session (·.root)) := by
  intro s s' hs
  exact .value (L.le_refl w) hs (L.root hs)

end Run

/-! ## Brackets -/

namespace Run

variable {x y : Exec Value}

protected theorem settle (O : S.Ordered) (hw : S.closed w) (h : S.Agrees ev ev' w x y) :
    S.Agrees ev ev' w (settle x) (settle y) := by
  intro s s' hs
  exact (h s s' hs).settled O hw

protected theorem asNative (h : S.Agrees ev ev' w x y) : S.Agrees ev ev' w (asNative x) (asNative y) := by
  intro s s' hs
  have hends := (h s s' hs).onErrors EvalError.asHostFailure
  rw [← hostFailed_eq_onErrors] at hends
  exact hends

variable (L : S.Lawful)
include L

protected theorem holding {x y : Exec α} (container : Value) (h : S.Agrees ev ev' w x y) :
    S.Agrees ev ev' w (holding container x) (holding container y) := by
  intro s s' hs
  have hends := h _ _ (L.withHeld (container :: s.held) hs)
  have hheld := L.held hs
  obtain ⟨heap, sites, held, session⟩ := s
  obtain ⟨heap', sites', held', session'⟩ := s'
  change held = held' at hheld
  subst hheld
  exact hends.state fun ht => L.withHeld held ht

/-- A body that owns no pooled scope, as a live call. -/
protected theorem asBarrier (name : String)
    (h : ∀ w₁, S.enters w w₁ → S.closed w₁ → S.Agrees ev ev' w₁ x y) :
    S.Agrees ev ev' w (asBarrier name x) (asBarrier name y) :=
  L.call name fun _ hinside => L.barrier fun w₁ henter => h w₁ (hinside.enters henter)

end Run

/-- A live call, where the two sides have the same live calls and may have any. -/
theorem agrees_asCall (O : S.Ordered)
    (hcalls : ∀ {w s s'}, S.rel w s s' → s.session.calls = s'.session.calls)
    (hwith : ∀ {w s s'} (calls), S.rel w s s' → S.rel w (s.withCalls calls) (s'.withCalls calls))
    (name : String) {x y : Exec Value} (h : ∀ w₁, S.Inside w w₁ → S.Agrees ev ev' w₁ x y) :
    S.Agrees ev ev' w (asCall name x) (asCall name y) := by
  intro s s' hs
  rw [asCall_apply, asCall_apply, hcalls hs]
  cases s'.session.calls.push name with
  | error e => exact .signal (.error _ (O.unwound_of_le (O.le_refl w))) hs
  | ok calls =>
    have hends := h w ⟨fun h => h, fun h => h, fun h => h⟩ _ _ (hwith calls hs)
    exact hends.endCall hcalls hwith

end Simulation
end TreeScript
