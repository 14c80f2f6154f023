import TreeScript.Proofs.Isolation.Company

/-
# Expressions, alone and in company

Where the left run goes on, the right one does the same: it finds the same slots, and computes the same from
primitive values.  A value that is kept in storage has different numbers in the two runs; the left run stops
before anything is done with it, so that all that is said of the values of two nodes is that they are the same
if they are primitive.
-/

namespace TreeScript
namespace Isolation

open Exec

variable {origin : Nat} {b b' : State} {ev ev' : Evaluator} {w : World} {α β : Type}

/-- The same value, if it is primitive. -/
def Like (_ : World) (v v' : Value) : Prop := v.Primitive → v = v'

/-- The two runs evaluate the nodes inside a node alike, and to primitive values. -/
structure Ready (origin : Nat) (b b' : State) (ev ev' : Evaluator) : Prop where
  fuel : ev.fuel = ev'.fuel
  eval : ∀ {w : World} (e : Node) {c c' : Nat}, w.scope c c' →
    (company origin b b').AgreesOn ev ev' w (fun _ => Value.Primitive) (eval e c) (eval e c')

/-! ## Steps -/

/-- Nothing is said when the left run stops. -/
theorem run_stopped (A : World → α → β → Prop) (y : Exec β) :
    (company origin b b').Run ev ev' w A (halt .outOfFuel) y := by
  intro s s' _
  exact .stopped s _ trivial

/-- What the left run does as long as something is so. -/
theorem run_stopUnless {A : World → α → β → Prop} {p : State → Bool} {x : Exec α} {y : Exec β}
    (h : ∀ s s', Rel origin b b' w s s' → p s = true →
      (company origin b b').Ends w A (x ev s) (y ev' s')) :
    (company origin b b').Run ev ev' w A (do stopUnless p; x) y := by
  intro s s' hs
  rw [bind_apply]
  unfold stopUnless
  cases hp : p s with
  | true =>
    rw [if_pos rfl]
    exact h s s' hs hp
  | false =>
    rw [if_neg Bool.false_ne_true]
    exact .stopped s _ trivial

/-- What neither reads nor writes the state. -/
theorem run_detached (hfuel : ev.fuel = ev'.fuel) {P : α → Prop} {x : Exec α} (h : Detached P x) :
    (company origin b b').AgreesOn ev ev' w (fun _ => P) x x := by
  intro s s' hs
  obtain ⟨r, hr, hP⟩ := h ev.fuel
  rw [hr ev s rfl, hr ev' s' hfuel.symm]
  rcases r with (e | k) | a
  · exact .signal (.error e (.refl _ w)) hs
  · exact .halted k (.refl _ w) hs
  · exact .value (.refl _ w) hs ⟨rfl, hP a rfl⟩

/-- A change of the heap for which the two runs have the same storage in a larger world. -/
theorem run_modifyHeap {f f' : Heap → Heap}
    (h : ∀ s s', Rel origin b b' w s s' → ∃ w' : World, w.Le b'.heap w' ∧
      Rel origin b b' w' (s.withHeap (f s.heap)) (s'.withHeap (f' s'.heap))) :
    (company origin b b').Agrees ev ev' w (modifyHeap f) (modifyHeap f') := by
  intro s s' hs
  obtain ⟨w', hle, hrel⟩ := h s s' hs
  exact .value hle hrel rfl

theorem run_newScope {c c' : Nat} (hc : w.scope c c') :
    (company origin b b').Run ev ev' w World.scope (make fun h => h.newScope c)
      (make fun h => h.newScope c') := by
  intro s s' hs
  obtain ⟨hle, hrel⟩ := hs.newScope hc
  exact .value hle hrel (Or.inl ⟨rfl, rfl⟩)

theorem run_declare {c c' : Nat} (hc : w.scope c c') (x : String) (ty : TypeKind) {v v' : Value}
    (hv : Like w v v') :
    (company origin b b').Agrees ev ev' w (modifyHeap fun h => h.declare c x ty v)
      (modifyHeap fun h => h.declare c' x ty v') :=
  run_modifyHeap fun _ _ hs => ⟨_, hs.declareSlot hc x ⟨rfl, rfl, hv⟩⟩

/-- A new scope that binds a name. -/
theorem run_newScopeWith {c c' : Nat} (hc : w.scope c c') (x : String) (v : Value) :
    (company origin b b').Run ev ev' w World.scope
      (make fun h =>
        let (inner, h) := h.newScope c
        (inner, h.declare inner x .any v))
      (make fun h =>
        let (inner, h) := h.newScope c'
        (inner, h.declare inner x .any v)) := by
  intro s s' hs
  obtain ⟨hle, hrel⟩ := hs.newScope hc
  obtain ⟨hle', hrel'⟩ := hrel.declareSlot (Or.inl ⟨rfl, rfl⟩) x (p := ⟨.any, v, true⟩) ⟨rfl, rfl, fun _ => rfl⟩
  exact .value (hle.trans hle') hrel' (hle'.scope (Or.inl ⟨rfl, rfl⟩))

/-! ## Storage that nothing is done with -/

/-- Storage that is neither scopes nor slots does not show. -/
theorem Rel.withStorage {s s' : State} (hs : Rel origin b b' w s s')
    (sequences sequences' : Array (Array Value)) (maps maps' : Array OrderedMap)
    (callables callables' : Array Callable) :
    Rel origin b b' w
      (s.withHeap { s.heap with sequences := sequences, maps := maps, callables := callables })
      (s'.withHeap { s'.heap with sequences := sequences', maps := maps', callables := callables' }) :=
  hs.withHeaps { hs.toTwins with } (.refl _ w) rfl rfl { hs.kept with }

theorem run_newList (vs vs' : List Value) :
    (company origin b b').Run ev ev' w Like (newList vs) (newList vs') := by
  intro s s' hs
  exact .value (.refl _ w) (hs.withStorage _ _ _ _ _ _) fun hv => by cases hv

theorem run_newMap (m m' : OrderedMap) :
    (company origin b b').Run ev ev' w Like (make fun h => h.newMap m) (make fun h => h.newMap m') := by
  intro s s' hs
  exact .value (.refl _ w) (hs.withStorage _ _ _ _ _ _) fun hv => by cases hv

theorem run_capture (k k' : Callable) :
    (company origin b b').Run ev ev' w Like (capture k) (capture k') := by
  intro s s' hs
  have hframes : ∀ s : State, ∃ frames, s.session.retainFrame = { s.session with frames := frames } := by
    intro s
    unfold Session.retainFrame
    split
    · exact ⟨_, rfl⟩
    · exact ⟨_, rfl⟩
  obtain ⟨frames, hleft⟩ := hframes s
  obtain ⟨frames', hright⟩ := hframes s'
  have hrel : Rel origin b b' w (s.withSession s.session.retainFrame) (s'.withSession s'.session.retainFrame) := by
    rw [hleft, hright]
    exact { hs with }
  exact .value (.refl _ w) (hrel.withStorage _ _ _ _ _ _) fun hv => by cases hv

/-- What a slot of a type starts with. -/
theorem run_defaultValue (ty : TypeKind) :
    (company origin b b').Run ev ev' w Like (make fun h => h.defaultValue ty)
      (make fun h => h.defaultValue ty) := by
  intro s s' hs
  cases ty with
  | list => exact run_newList [] [] s s' hs
  | map => exact run_newMap .empty .empty s s' hs
  | array => exact .value (.refl _ w) (hs.withStorage _ _ _ _ _ _) fun hv => by cases hv
  | ref =>
    have hle : w.Le b'.heap (w.addSlot s.heap.slots.size s'.heap.slots.size) := .addSlot hs.kept.slots_le
    have hslot : SameSlot ⟨.any, .null, true⟩ ⟨.any, .null, true⟩ := ⟨rfl, rfl, fun _ => rfl⟩
    refine .value hle (hs.withHeaps (hs.toTwins.pushSlot hslot) hle rfl rfl ?_) fun hv => by cases hv
    exact (hs.kept_mono hle).pushSlot _
  | _ => exact .value (.refl _ w) hs fun _ => rfl

/-! ## Variables -/

/-- A name that the coroutine owns reads the same. -/
theorem run_read {c c' : Nat} (hc : w.scope c c') (x : String) :
    (company origin b b').Run ev ev' w Like
      (do
        stopUnless fun s => s.heap.owns origin c x
        heap fun h => h.read c x)
      (heap fun h => h.read c' x) := by
  refine run_stopUnless fun s s' hs howns => ?_
  obtain ⟨a, a', i, i', -, hi, hlookup, hlookup', -, -⟩ := hs.toTwins.owned hc howns
  refine .value (.refl _ w) hs ?_
  have hleft : s.heap.read c x = s.heap.valueAt i := by rw [Heap.read, hlookup]; rfl
  have hright : s'.heap.read c' x = s'.heap.valueAt i' := by rw [Heap.read, hlookup']; rfl
  show Like w (s.heap.read c x) (s'.heap.read c' x)
  rw [hleft, hright]
  exact (hs.slot hi).value

theorem run_delete {c c' : Nat} (hc : w.scope c c') (x : String) :
    (company origin b b').Run ev ev' w Like
      (do
        stopUnless fun s => s.heap.owns origin c x
        dispatch (.delete x) c)
      (dispatch (.delete x) c') := by
  refine run_stopUnless fun s s' hs howns => ?_
  exact .value (.refl _ w) (hs.unbind hc howns) fun _ => rfl

section
variable (R : Ready origin b b' ev ev')
include R

/-- A primitive value is written to slots that are the same. -/
theorem run_store {i i' : Nat} (hi : w.slot i i') (x : String) {v : Value} (hv : v.Primitive) :
    (company origin b b').Agrees ev ev' w (store i x v) (store i' x v) := by
  have htype : (company origin b b').Agrees ev ev' w (heap fun h => (h.slot i).type)
      (heap fun h => (h.slot i').type) := by
    intro s s' hs
    exact .value (.refl _ w) hs (hs.slot hi).type
  refine .bind ordered htype fun w₁ ty h₁ => ?_
  refine .bindOn ordered (run_detached R.fuel (detached_coerce hv ty)) fun w₂ u h₂ _ => ?_
  have hi₂ : World.slot w₂ i i' := (h₁.trans h₂).slot hi
  have hmutable : (company origin b b').Agrees ev ev' w₂ (heap fun h => (h.slot i).isMutable)
      (heap fun h => (h.slot i').isMutable) := by
    intro s s' hs
    exact .value (.refl _ w₂) hs (hs.slot hi₂).isMutable
  refine .bind ordered hmutable fun w₃ isMutable h₃ => ?_
  cases isMutable with
  | true =>
    refine .bind ordered (run_modifyHeap fun s s' hs => ?_) fun _ _ _ => .pure ordered u
    exact ⟨w₃, .refl _ w₃, hs.setValue (h₃.slot hi₂) fun _ => rfl⟩
  | false => exact .fail ordered _

/-- A node whose first part is evaluated alike. -/
theorem run_first {e p : Node} (hp : e.first? = some p) {c c' : Nat} (hc : w.scope c c')
    {A : World → Value → Value → Prop}
    (h : ∀ w₁ v, w.Le b'.heap w₁ → v.Primitive →
      (company origin b b').Run ev ev' w₁ A (afterFirst e c v) (afterFirst e c' v)) :
    (company origin b b').Run ev ev' w A (dispatch e c) (dispatch e c') := by
  rw [dispatch_of_first hp, dispatch_of_first hp]
  exact .bindOn ordered (R.eval p hc) h

theorem run_assign {c c' : Nat} (hc : w.scope c c') (x : String) (e : Node) :
    (company origin b b').Run ev ev' w Like (dispatchInside origin (.assign x e) c)
      (dispatch (.assign x e) c') := by
  rw [dispatch_of_first (e := .assign x e) rfl]
  refine .bindOn ordered (R.eval e hc) fun w₁ v h₁ hv => ?_
  refine run_stopUnless fun s s' hs howns => ?_
  obtain ⟨a, a', i, i', -, hi, hlookup, hlookup', -, -⟩ := hs.toTwins.owned (h₁.scope hc) howns
  have hfound : ∀ {ev : Evaluator} {s : State} {c i : Nat}, s.heap.lookup c x = some i →
      afterFirst (.assign x e) c v ev s = store i x v ev s := by
    intro ev s c i hi
    simp only [afterFirst, bind_apply, heap, hi]
  show (company origin b b').Ends w₁ Like (afterFirst (.assign x e) c v ev s)
    (afterFirst (.assign x e) c' v ev' s')
  rw [hfound hlookup, hfound hlookup']
  have hstore : (company origin b b').Run ev ev' w₁ Like (store i x v) (store i' x v) :=
    (run_store R hi x hv).weaken fun _ _ _ hab _ => hab
  exact hstore s s' hs

theorem run_declareNode {c c' : Nat} (hc : w.scope c c') (ty : TypeKind) (x : String) (e : Option Node) :
    (company origin b b').Run ev ev' w Like (dispatch (.declare ty x e) c) (dispatch (.declare ty x e) c') := by
  cases e with
  | none =>
    refine .seq ordered (run_defaultValue ty) fun w₁ v v' h₁ hv => ?_
    exact .bind ordered (run_declare (h₁.scope hc) x ty hv) fun _ _ _ => .give ordered hv
  | some e =>
    refine run_first R (e := .declare ty x (some e)) rfl hc fun w₁ v h₁ hv => ?_
    refine .bindOn ordered (run_detached R.fuel (detached_coerce hv ty)) fun w₂ v h₂ _ => ?_
    have hc₂ : World.scope w₂ c c' := (h₁.trans h₂).scope hc
    refine .bind ordered (run_declare hc₂ x ty fun _ => rfl) fun _ _ _ => ?_
    exact .give ordered fun _ => rfl

/-! ## Parts -/

theorem run_evalAll {c c' : Nat} (hc : w.scope c c') (es : List Node) :
    (company origin b b').AgreesOn ev ev' w (fun _ vs => ∀ v ∈ vs, v.Primitive) (evalAll c es)
      (evalAll c' es) := by
  induction es generalizing w with
  | nil => exact .give ordered ⟨rfl, nofun⟩
  | cons e es ih =>
    refine .bindOn ordered (R.eval e hc) fun w₁ v h₁ hv => ?_
    refine .bindOn ordered (ih (h₁.scope hc)) fun w₂ vs h₂ hvs => ?_
    exact .give ordered ⟨rfl, List.forall_mem_cons.mpr ⟨hv, hvs⟩⟩

theorem run_evalEntries {c c' : Nat} (hc : w.scope c c') (m : OrderedMap) (es : List (Node × Node)) :
    (company origin b b').Agrees ev ev' w (evalEntries c m es) (evalEntries c' m es) := by
  induction es generalizing w m with
  | nil => exact .pure ordered m
  | cons e es ih =>
    refine .bindOn ordered (R.eval e.1 hc) fun w₁ k h₁ _ => ?_
    refine .bindOn ordered (R.eval e.2 (h₁.scope hc)) fun w₂ v h₂ _ => ?_
    exact ih ((h₁.trans h₂).scope hc) (m.insert k v)

theorem run_toBool {v : Value} (hv : v.Primitive) :
    (company origin b b').Agrees ev ev' w (toBool v) (toBool v) :=
  (run_detached R.fuel (detached_toBool hv)).agrees

/-- What neither reads nor writes the state gives the same value. -/
theorem like_detached {P : Value → Prop} {x : Exec Value} (h : Detached P x) :
    (company origin b b').Run ev ev' w Like x x :=
  (run_detached R.fuel h).weaken fun _ _ _ hab _ => hab.1

/-- Evaluating a node gives the same value. -/
theorem like_eval (e : Node) {c c' : Nat} (hc : w.scope c c') :
    (company origin b b').Run ev ev' w Like (eval e c) (eval e c') :=
  (R.eval e hc).weaken fun _ _ _ hab _ => hab.1

theorem run_binary {c c' : Nat} (hc : w.scope c c') (op : BinaryOp) (l r : Node) :
    (company origin b b').Run ev ev' w Like (dispatch (.binary op l r) c) (dispatch (.binary op l r) c') := by
  refine run_first R (e := .binary op l r) rfl hc fun w₁ v h₁ hv => ?_
  show (company origin b b').Run ev ev' w₁ Like (afterLeft op r c v) (afterLeft op r c' v)
  unfold afterLeft
  split
  · refine .bind ordered (run_toBool R hv) fun w₂ a h₂ => ?_
    split
    · exact .give ordered fun _ => rfl
    · refine .bindOn ordered (R.eval r ((h₁.trans h₂).scope hc)) fun w₃ u h₃ hu => ?_
      exact .bind ordered (run_toBool R hu) fun _ _ _ => .give ordered fun _ => rfl
  · refine .bindOn ordered (R.eval r (h₁.scope hc)) fun w₂ u h₂ hu => ?_
    exact like_detached R (detached_applyBinary op hv hu)

theorem run_ternary {c c' : Nat} (hc : w.scope c c') (cond yes no : Node) :
    (company origin b b').Run ev ev' w Like (dispatch (.ternary cond yes no) c)
      (dispatch (.ternary cond yes no) c') := by
  refine run_first R (e := .ternary cond yes no) rfl hc fun w₁ v h₁ hv => ?_
  refine .bind ordered (run_toBool R hv) fun w₂ a h₂ => ?_
  have hc₂ : World.scope w₂ c c' := (h₁.trans h₂).scope hc
  split
  · exact like_eval R yes hc₂
  · exact like_eval R no hc₂

/-! ## Elements and fields -/

theorem run_index {c c' : Nat} (hc : w.scope c c') (e : Node) (keys : List Node) :
    (company origin b b').Run ev ev' w Like (dispatch (.index e keys) c) (dispatch (.index e keys) c') := by
  refine run_first R (e := .index e keys) rfl hc fun w₁ v h₁ hv => ?_
  refine .bindOn ordered (run_evalAll R (h₁.scope hc) keys) fun w₂ ks h₂ hks => ?_
  exact like_detached R (detached_walk true _ hv hks)

theorem run_indexAssign {c c' : Nat} (hc : w.scope c c') (e : Node) (keys : List Node) (new : Node) :
    (company origin b b').Run ev ev' w Like (dispatch (.indexAssign e keys new) c)
      (dispatch (.indexAssign e keys new) c') := by
  refine run_first R (e := .indexAssign e keys new) rfl hc fun w₁ v h₁ hv => ?_
  refine .bindOn ordered (run_evalAll R (h₁.scope hc) keys) fun w₂ ks h₂ hks => ?_
  refine .bindOn ordered (R.eval new ((h₁.trans h₂).scope hc)) fun w₃ u h₃ _ => ?_
  exact like_detached R (detached_indexSet hv hks u)

theorem run_field {c c' : Nat} (hc : w.scope c c') (e : Node) (x : String) :
    (company origin b b').Run ev ev' w Like (dispatch (.field e x) c) (dispatch (.field e x) c') := by
  refine run_first R (e := .field e x) rfl hc fun w₁ v h₁ hv => ?_
  exact .bindOn ordered (run_detached R.fuel (detached_fieldSlot hv x fun _ => False)) fun _ _ _ h => h.elim

theorem run_fieldAssign {c c' : Nat} (hc : w.scope c c') (e : Node) (x : String) (new : Node) :
    (company origin b b').Run ev ev' w Like (dispatch (.fieldAssign e x new) c)
      (dispatch (.fieldAssign e x new) c') := by
  refine run_first R (e := .fieldAssign e x new) rfl hc fun w₁ v h₁ hv => ?_
  exact .bindOn ordered (run_detached R.fuel (detached_fieldSlot hv x fun _ => False)) fun _ _ _ h => h.elim

/-- A primitive value is an instance of no class. -/
theorem run_constObject {c c' : Nat} (hc : w.scope c c') (cls x : String) (e : Node) :
    (company origin b b').Run ev ev' w Like (dispatch (.constObject cls x e) c)
      (dispatch (.constObject cls x e) c') := by
  refine run_first R (e := .constObject cls x e) rfl hc fun w₁ v h₁ hv => ?_
  refine .bindOn ordered (run_detached R.fuel (detached_checkInstance hv cls)) fun w₂ u h₂ _ => ?_
  refine .bind ordered (run_modifyHeap fun s s' hs => ?_) fun _ _ _ => .give ordered fun _ => rfl
  exact ⟨_, hs.declareSlot ((h₁.trans h₂).scope hc) x ⟨rfl, rfl, fun _ => rfl⟩⟩

end

/-! ## Templates -/

/-- An expression without calls is read alike: its call sites, of which there are none, have no numbers. -/
theorem run_parseExpression {source : String} (hsource : b'.session.readsNoCall source = true) :
    (company origin b b').Agrees ev ev' w (parseExpression source) (parseExpression source) := by
  intro s s' hs
  have hparser : s.session.parser? = s'.session.parser? := congrArg Conditions.parser? hs.conditions
  have hparser' : s'.session.parser? = b'.session.parser? := congrArg Conditions.parser? hs.conditions'
  simp only [parseExpression, bind_apply, session]
  rw [hparser]
  cases hp : s'.session.parser? with
  | none => exact .signal (.error _ (.refl _ w)) hs
  | some parse =>
    dsimp only
    cases he : parse source with
    | error message => exact .signal (.error _ (.refl _ w)) hs
    | ok e =>
      have hcalls : e.calls = [] := by
        unfold Session.readsNoCall at hsource
        rw [← hparser', hp] at hsource
        dsimp only at hsource
        rw [he] at hsource
        exact List.isEmpty_iff.mp hsource
      have hnumbered : ∀ n, e.numbered n = (e, n) := e.leaves_as_is hcalls
      simp only [hnumbered]
      exact .value (.refl _ w) { hs with } rfl

theorem run_template (R : Ready origin b b' ev ev') {c c' : Nat} (hc : w.scope c c') (t : String) :
    (company origin b b').Run ev ev' w Like
      (do
        stopUnless fun s => s.session.callsNothing t
        dispatch (.template t) c)
      (dispatch (.template t) c') := by
  refine run_stopUnless fun s s' hs hnothing => ?_
  have hparser : s.session.parser? = b'.session.parser? :=
    congrArg Conditions.parser? (hs.conditions.trans hs.conditions')
  suffices hrun : (company origin b b').Run ev ev' w Like (evalTemplate t c) (evalTemplate t c') from
    hrun s s' hs
  unfold evalTemplate
  cases hsegments : Template.segments? t with
  | none => exact .fail ordered _
  | some segments =>
    have hreads : ∀ source, .source source ∈ segments → b'.session.readsNoCall source = true := by
      intro source hmem
      unfold Session.callsNothing at hnothing
      rw [hsegments] at hnothing
      have hsource := List.all_eq_true.mp hnothing _ hmem
      unfold Session.readsNoCall at hsource ⊢
      rw [← hparser]
      exact hsource
    refine .bind ordered ?_ fun _ _ _ => .give ordered fun _ => rfl
    refine .mapM ordered _ _ segments fun w₁ h₁ segment hsegment => ?_
    cases segment with
    | text s => exact .pure ordered s
    | source source =>
      refine .bind ordered (run_parseExpression (hreads source hsegment)) fun w₂ e h₂ => ?_
      refine .bindOn ordered (R.eval e ((World.Le.trans h₁ h₂).scope hc)) fun w₃ v h₃ hv => ?_
      exact (run_detached R.fuel (detached_stringify hv)).agrees

end Isolation
end TreeScript
