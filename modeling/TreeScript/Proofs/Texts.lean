import TreeScript.Proofs.Endings.Structures
import TreeScript.Proofs.Overloads

/-
# Texts of values

The text of a value is what it adds to a string, what it converts to as a string and what is printed of it;
classes say by their methods `cast` what the objects in it look like.  Whether a value is equal to a string
is a matter of its text as well, but there no code of the program runs, unless the value is an object
itself: an object in a list, array, map or reference is shown by its label, whatever its class says.  So
equality with a string agrees with the text of a value that is an object, and of one in which no object has
a say (`string_equality`).
-/

namespace TreeScript

/-- What the equalities say about two texts. -/
def BinaryOp.onTexts? : BinaryOp → Option (String → String → Bool)
  | eq => some (· == ·)
  | notEq => some (· != ·)
  | _ => none

namespace Heap

variable {h : Heap} {v : Value} {depth depth' : Nat} {op : BinaryOp} {f : String → String → Bool} {x : String}

theorem mapM_congr {α β : Type} {f g : α → Option β} {items : List α} (hfg : ∀ a ∈ items, f a = g a) :
    items.mapM f = items.mapM g := by
  induction items with
  | nil => rfl
  | cons a items ih =>
    rw [List.mapM_cons, List.mapM_cons, hfg a List.mem_cons_self,
      ih fun b hb => hfg b (List.mem_cons_of_mem a hb)]

/-- Below where a value ends, a rendering changes no more. -/
theorem renderTo_of_le (hends : EndsWithin h.parts depth v) (hle : depth ≤ depth') (nested : Bool) :
    h.renderTo depth' v nested = h.renderTo depth v nested := by
  induction depth generalizing v depth' nested with
  | zero => exact hends.elim
  | succ depth ih =>
    -- both depths have a level to give away, and the parts end within the smaller one
    obtain ⟨depth', rfl⟩ : ∃ k, depth' = k + 1 := ⟨depth' - 1, by omega⟩
    have hpart : ∀ u ∈ (h.shape v nested).parts, ∀ nested,
        h.renderTo depth' u nested = h.renderTo depth u nested := by
      intro u hu nested
      rw [parts_shape] at hu
      exact ih (hends u hu) (Nat.le_of_succ_le_succ hle) nested
    rw [renderTo, renderTo]
    cases hcase : h.shape v nested with
    | text t | object i => rfl
    | same u => exact hpart u (by rw [hcase]; exact List.mem_cons_self) nested
    | row separator inner items =>
      have hitems : items.mapM (h.renderTo depth' · inner) = items.mapM (h.renderTo depth · inner) :=
        mapM_congr fun u hu => hpart u (by rw [hcase]; exact hu) inner
      dsimp only
      rw [hitems]
    | entries es =>
      have hmem : ∀ e ∈ es, ∀ u ∈ [e.1, e.2], u ∈ (h.shape v nested).parts := fun e he u hu => by
        rw [hcase]
        exact List.mem_flatMap.mpr ⟨e, he, hu⟩
      dsimp only
      congr 1
      refine mapM_congr fun e he => ?_
      rw [hpart e.1 (hmem e he e.1 (by simp)) false, hpart e.2 (hmem e he e.2 (by simp)) true]

/-- More levels than a path has without coming back make no difference. -/
theorem renderTo_of_depthBound_le (hle : h.depthBound ≤ depth) (v : Value) :
    h.renderTo depth v false = h.renderTo h.depthBound v false := by
  by_cases hv : h.Acyclic v
  · exact renderTo_of_le hv.within hle false
  · have hnever (k : Nat) : h.renderTo k v false = none := by
      rw [← Option.not_isSome_iff_eq_none, renderTo_isSome]
      exact fun hends => hv hends.ends
    rw [hnever, hnever]

theorem render_str (h : Heap) (x : String) : h.render (.str x) = .ok x := rfl

theorem valuesEqual_str (hnull : v ≠ .null) (x : String) :
    h.valuesEqual (.str x) v = (do return x == (← h.render v)) ∧
      h.valuesEqual v (.str x) = (do return (← h.render v) == x) := by
  cases v with
  | null => exact absurd rfl hnull
  | _ =>
    constructor
    · simp only [valuesEqual, render_str]
      rfl
    · simp only [valuesEqual, render_str]
      rfl

/-- A string is compared with the text in which objects are shown by their labels. -/
theorem binary_str (hop : op.onTexts? = some f) (hnull : v ≠ .null) (x : String) :
    h.binary op (.str x) v = (do return .bool (f x (← h.render v))) ∧
      h.binary op v (.str x) = (do return .bool (f x (← h.render v))) := by
  obtain ⟨hleft, hright⟩ := valuesEqual_str (h := h) hnull x
  have hcomm (t : String) : (t == x) = (x == t) := BEq.comm
  cases op <;> cases hop
  case eq =>
    simp only [binary, hleft, hright, hcomm]
    cases h.render v <;> exact ⟨rfl, rfl⟩
  case notEq =>
    simp only [binary, hleft, hright, hcomm]
    cases h.render v <;> exact ⟨rfl, rfl⟩

end Heap

namespace Exec

variable {ev : Evaluator} {s t : State} {v l r w : Value} {i : Nat} {x y : String} {op : BinaryOp}
  {f : String → String → Bool}

theorem stringify_str (hfuel : 0 < ev.fuel) : stringify (.str x) ev s = (.value x, s) := by
  obtain ⟨n, hn⟩ := Nat.exists_eq_add_of_lt hfuel
  show stringifyTo ev.fuel (.str x) false ev s = _
  rw [hn]
  rfl

theorem stringify_object (hfuel : 0 < ev.fuel) : stringify (.object i) ev s = objectText i ev s := by
  obtain ⟨n, hn⟩ := Nat.exists_eq_add_of_lt hfuel
  show stringifyTo ev.fuel (.object i) false ev s = _
  rw [hn]
  rfl

/-- Where objects are shown by their labels, evaluations give the text that needs no code. -/
theorem stringify_labelled (hfuel : s.heap.depthBound ≤ ev.fuel) (hlabels : s.heap.Labelled v) :
    stringify v ev s = Heap.given (s.heap.renderTo s.heap.depthBound v false) s := by
  show stringifyTo ev.fuel v false ev s = _
  rw [Heap.stringifyTo_eq hlabels ev.fuel false rfl, Heap.renderTo_of_depthBound_le hfuel]

/-- Evaluations that begin alike and go on alike are alike. -/
theorem bind_congr {α β : Type} {e : Exec α} {k k' : α → Exec β} (hk : ∀ a t, k a ev t = k' a ev t) :
    (e >>= k) ev s = (e >>= k') ev s := by
  rw [bind_apply, bind_apply]
  rcases e ev s with ⟨a | g | g, t⟩
  · exact hk a t
  · rfl
  · rfl

theorem map_eq_value_iff {α β : Type} {e : Exec α} {g : α → β} {b : β} :
    (do return g (← e) : Exec β) ev s = (.value b, t) ↔ ∃ a, e ev s = (.value a, t) ∧ b = g a := by
  rw [bind_apply]
  rcases e ev s with ⟨a | k | k, t'⟩ <;> simp [and_comm, eq_comm]

/-! ## Equality with a string -/

theorem joinsText_of_onTexts? (hop : op.onTexts? = some f) (l r : Value) : joinsText op l r = false := by
  cases op <;> cases hop <;> rfl

theorem plainBinary_equality (hop : op.onTexts? = some f) (l r : Value) :
    plainBinary op l r ev s = ofChecked (s.heap.binary op l r) ev s := by
  rw [plainBinary, joinsText_of_onTexts? hop, if_neg Bool.false_ne_true]
  rfl

theorem textBinary_str_object (hstrict : op ≠ .strictEq) :
    textBinary op (.str x) (.object i) = (do plainBinary op (.str x) (.str (← objectText i))) := by
  rw [textBinary, if_neg hstrict]
  simp only [asText, pure_bind, bind_assoc]

theorem textBinary_object_str (hstrict : op ≠ .strictEq) :
    textBinary op (.object i) (.str x) = (do plainBinary op (.str (← objectText i)) (.str x)) := by
  rw [textBinary, if_neg hstrict]
  simp only [asText, pure_bind, bind_assoc]

/-- A string and an object compare by the text that the class gives. -/
theorem textBinary_equality (hop : op.onTexts? = some f) :
    textBinary op (.str x) (.object i) ev s = (do return .bool (f x (← objectText i)) : Exec Value) ev s ∧
      textBinary op (.object i) (.str x) ev s =
        (do return .bool (f x (← objectText i)) : Exec Value) ev s := by
  have hstrict : op ≠ .strictEq := by
    rintro rfl
    cases hop
  have htexts (y : String) (t : State) :
      plainBinary op (.str x) (.str y) ev t = (.value (.bool (f x y)), t) ∧
        plainBinary op (.str y) (.str x) ev t = (.value (.bool (f x y)), t) := by
    obtain ⟨hleft, hright⟩ := Heap.binary_str (h := t.heap) hop (v := .str y) nofun x
    rw [plainBinary_equality hop, plainBinary_equality hop, hleft, hright, Heap.render_str]
    exact ⟨rfl, rfl⟩
  rw [textBinary_str_object hstrict, textBinary_object_str hstrict]
  exact ⟨bind_congr fun y t => (htexts y t).1, bind_congr fun y t => (htexts y t).2⟩

theorem applyBinary_equality_object (hop : op.onTexts? = some f) (hfuel : 0 < ev.fuel)
    (hsides : (l = .str x ∧ r = .object i) ∨ (l = .object i ∧ r = .str x)) :
    applyBinary op l r ev s = (do return .bool (f x (← stringify (.object i))) : Exec Value) ev s := by
  have htext : (do return .bool (f x (← stringify (.object i))) : Exec Value) ev s =
      (do return .bool (f x (← objectText i)) : Exec Value) ev s := by
    rw [bind_apply, bind_apply, stringify_object hfuel]
  rw [htext]
  rcases hsides with ⟨rfl, rfl⟩ | ⟨rfl, rfl⟩
  · exact (textBinary_equality hop).1
  · exact (textBinary_equality hop).2

theorem applyBinary_str_plain (hobject : ∀ i, v ≠ .object i) :
    applyBinary op (.str x) v = plainBinary op (.str x) v := by
  have htext : ¬ ((∃ y, Value.str x = .str y) ∧ ∃ j, v = .object j) := fun hr => not_exists.mpr hobject hr.2
  exact applyBinary_plain nofun htext

theorem applyBinary_plain_str (hobject : ∀ i, v ≠ .object i) :
    applyBinary op v (.str x) = plainBinary op v (.str x) := by
  have htext : ¬ ((∃ y, v = .str y) ∧ ∃ j, Value.str x = .object j) := fun hr => nomatch hr.2
  exact applyBinary_plain hobject htext

/-- Where objects are shown by their labels, it is the text that is compared. -/
theorem applyBinary_equality_labelled (hop : op.onTexts? = some f) (hnull : v ≠ .null)
    (hobject : ∀ i, v ≠ .object i) (hfuel : s.heap.depthBound ≤ ev.fuel) (hlabels : s.heap.Labelled v)
    (hsides : (l = .str x ∧ r = v) ∨ (l = v ∧ r = .str x)) :
    applyBinary op l r ev s = (.value w, t) ↔
      ∃ y, stringify v ev s = (.value y, t) ∧ w = .bool (f x y) := by
  have happly : applyBinary op l r ev s =
      ofChecked (do return Value.bool (f x (← s.heap.render v))) ev s := by
    obtain ⟨hleft, hright⟩ := Heap.binary_str (h := s.heap) hop hnull x
    rcases hsides with ⟨rfl, rfl⟩ | ⟨rfl, rfl⟩
    · rw [applyBinary_str_plain hobject, plainBinary_equality hop, hleft]
    · rw [applyBinary_plain_str hobject, plainBinary_equality hop, hright]
  rw [happly, stringify_labelled hfuel hlabels, Heap.render]
  cases s.heap.renderTo s.heap.depthBound v false with
  | none =>
    constructor
    · intro hgives
      cases hgives
    · rintro ⟨_, htext, -⟩
      cases htext
  | some y =>
    constructor
    · intro hgives
      cases hgives
      exact ⟨y, rfl, rfl⟩
    · rintro ⟨_, htext, rfl⟩
      cases htext
      rfl

/-! ## What a text shows up in -/

theorem plainBinary_add_str (hfuel : 0 < ev.fuel) (x : String) (v : Value) :
    plainBinary .add (.str x) v ev s = (do return Value.str (x ++ (← stringify v)) : Exec Value) ev s := by
  show (do
    let left ← stringify (.str x)
    let right ← stringify v
    return Value.str (left ++ right) : Exec Value) ev s = _
  rw [bind_apply, stringify_str hfuel]

theorem applyBinary_add_empty (hfuel : 0 < ev.fuel) (v : Value) :
    applyBinary .add (.str "") v ev s = (do return Value.str (← stringify v) : Exec Value) ev s := by
  by_cases hobject : ∃ i, v = .object i
  · obtain ⟨i, rfl⟩ := hobject
    have htext : (do return .str (← stringify (.object i)) : Exec Value) ev s =
        (do return .str (← objectText i) : Exec Value) ev s := by
      rw [bind_apply, bind_apply, stringify_object hfuel]
    rw [htext]
    have happly : applyBinary .add (.str "") (.object i) =
        (do plainBinary .add (.str "") (.str (← objectText i))) := textBinary_str_object nofun
    rw [happly]
    refine bind_congr fun y t => ?_
    rw [plainBinary_add_str hfuel, bind_apply, stringify_str hfuel]
    exact congrArg (fun z => (Outcome.value (Value.str z), t)) String.empty_append
  · rw [applyBinary_str_plain (not_exists.mp hobject), plainBinary_add_str hfuel]
    simp only [String.empty_append]

theorem castValue_string (hfuel : 0 < ev.fuel) (hnull : v ≠ .null) :
    castValue v .string ev s = (do return Value.str (← stringify v) : Exec Value) ev s := by
  cases v with
  | null => exact absurd rfl hnull
  | str x =>
    rw [bind_apply, stringify_str hfuel]
    rfl
  | _ => rfl

theorem joinTexts_singleton (v : Value) : joinTexts [v] = stringify v := by
  simp only [joinTexts, List.mapM_cons, List.mapM_nil, bind_assoc, pure_bind, String.intercalate_singleton,
    bind_pure]

end Exec

open Exec

/-- **Equality with a string is equality of texts**, for an object and for a value in which objects are
shown by their labels: on either side, `==` with a string gives whether the string is the value's text, `!=`
whether it is not, and they give something if and only if there is a text.  The text of any value but null
is what it adds to the empty string, what it converts to as a string, and what is printed of it; and a value
in which objects are shown by their labels has one if it does not contain itself. -/
theorem string_equality (fuel : Nat) {s : State} {v : Value} (hnull : v ≠ .null)
    (hfuel : s.heap.depthBound ≤ fuel) :
    ((applyBinary .add (.str "") v).run fuel s =
        (do return Value.str (← stringify v) : Exec Value).run fuel s ∧
      ∀ accepting,
        (runCore (.convert "toString" .string) [v] accepting).run fuel s =
          (do return Value.str (← stringify v) : Exec Value).run fuel s ∧
        (runCore .print [v] accepting).run fuel s =
          (do
            let text ← stringify v
            modifySession fun s => { s with output := s.output.printLine text }
            return Value.null : Exec Value).run fuel s) ∧
    ((∃ i, v = .object i) ∨ s.heap.Labelled v →
      ∀ op f, op.onTexts? = some f → ∀ x l r, (l = .str x ∧ r = v) ∨ (l = v ∧ r = .str x) →
        ∀ w t, (applyBinary op l r).run fuel s = (.value w, t) ↔
          ∃ y, (stringify v).run fuel s = (.value y, t) ∧ w = .bool (f x y)) ∧
    (s.heap.Labelled v → s.heap.Acyclic v → ∃ y, (stringify v).run fuel s = (.value y, s)) := by
  have hpos : 0 < (evaluator fuel).fuel := Nat.lt_of_lt_of_le (Nat.succ_pos _) hfuel
  unfold Exec.run
  refine ⟨⟨applyBinary_add_empty hpos v, fun _ => ⟨castValue_string hpos hnull, ?_⟩⟩, ?_, ?_⟩
  · show (joinTexts [v] >>= _) _ s = _
    rw [bind_apply, joinTexts_singleton]
    rfl
  · intro hv op f hop x l r hsides w t
    by_cases hobject : ∃ i, v = .object i
    · obtain ⟨i, rfl⟩ := hobject
      rw [applyBinary_equality_object hop hpos hsides]
      exact map_eq_value_iff
    · have hlabels := hv.resolve_left hobject
      exact applyBinary_equality_labelled hop hnull (not_exists.mp hobject) hfuel hlabels hsides
  · intro hlabels hends
    obtain ⟨y, hy⟩ := Option.isSome_iff_exists.mp
      ((Heap.renderTo_isSome s.heap s.heap.depthBound v false).mpr hends.within)
    exact ⟨y, by rw [stringify_labelled hfuel hlabels, hy]; rfl⟩

namespace Host

/-- A class whose instances are shown as `x`. -/
def shown : ClassDecl Node where
  name := "A"
  superclasses := []
  fields := []
  methods := [answering "cast" [⟨"t", .any⟩] (.str "x")]
  constructors := []

/-- A class whose instances are shown by their labels. -/
def unshown : ClassDecl Node := ⟨"B", [], [], [], []⟩

/-- A session in which two lists each hold an instance of one of the classes. -/
def showingHost : Host :=
  (Host.empty.serve (fun _ => evaluator 30) [.start bare, .prepare 2, .evaluate 0 (.classDef shown),
    .evaluate 0 (.classDef unshown),
    .evaluate 0 (.declare .any "a" (some (.listLiteral [.call 0 "A" []]))),
    .evaluate 0 (.declare .any "b" (some (.listLiteral [.call 1 "B" []])))]).2

/-- Where evaluations in the session begin. -/
def showingState : State :=
  ⟨showingHost.heap, showingHost.sites, [], showingHost.sessions.getD 0 (.blank 0 0 bare)⟩

end Host

/-- An object is equal to the text that its class gives for it, and a list to its text if the class of the
object inside gives none. -/
theorem string_equality_showing :
    let s := Host.showingState
    let t := ((stringify (.object 0)).run 20 s).2
    (applyBinary .eq (.object 0) (.str "x")).run 20 s = (.value (.bool true), t) ∧
      ∃ y, (stringify (.list 1)).run 20 s = (.value y, s) ∧
        (applyBinary .notEq (.str y) (.list 1)).run 20 s = (.value (.bool false), s) := by
  intro s t
  have hfuel : s.heap.depthBound ≤ 20 := by decide +kernel
  have hx : (stringify (.object 0)).run 20 s = (.value "x", t) :=
    Prod.ext (Outcome.value?_eq_some.mp (by decide +kernel)) rfl
  have hone : s.heap.sequence 1 = #[.object 1] := by decide +kernel
  have hparts : s.heap.parts (.list 1) = [.object 1] := congrArg Array.toList hone
  have hleaf : s.heap.parts (.object 1) = [] := rfl
  have hlabels : s.heap.Labelled (.list 1) := by
    intro i hi
    have hclosed : ∀ v ∈ [Value.list 1, .object 1], ∀ w ∈ s.heap.parts v, w ∈ [Value.list 1, .object 1] := by
      simp [hparts, hleaf]
    have hmem := hi.mem hclosed List.mem_cons_self
    simp only [List.mem_cons, reduceCtorEq, Value.object.injEq, List.not_mem_nil, or_false, false_or] at hmem
    subst hmem
    exact Option.isNone_iff_eq_none.mp (by decide +kernel)
  have hends : s.heap.Acyclic (.list 1) := EndsWithin.ends (n := 2) (by
    simp [EndsWithin, hparts, hleaf])
  obtain ⟨-, hobject, -⟩ := string_equality 20 (v := .object 0) (by simp) hfuel
  obtain ⟨-, hlist, htext⟩ := string_equality 20 (v := .list 1) (by simp) hfuel
  obtain ⟨y, hy⟩ := htext hlabels hends
  refine ⟨(hobject (Or.inl ⟨0, rfl⟩) .eq _ rfl "x" _ _ (Or.inr ⟨rfl, rfl⟩) _ _).mpr ⟨"x", hx, rfl⟩, y, hy,
    (hlist (Or.inr hlabels) .notEq _ rfl y _ _ (Or.inl ⟨rfl, rfl⟩) _ _).mpr ⟨y, hy, ?_⟩⟩
  simp

/-- A list that holds an instance of a class that gives a text is not equal to its own text. -/
theorem string_equality_misses :
    let s := Host.showingState
    ((stringify (.list 0)).run 20 s).1 = .value "[x]" ∧
      ((applyBinary .add (.str "") (.list 0)).run 20 s).1 = .value (.str "[x]") ∧
      ((applyBinary .eq (.str "[x]") (.list 0)).run 20 s).1 = .value (.bool false) :=
  ⟨Outcome.value?_eq_some.mp (by decide +kernel), Outcome.value?_eq_some.mp (by decide +kernel),
    Outcome.value?_eq_some.mp (by decide +kernel)⟩

end TreeScript
