import TreeScript.Proofs.Logic.Control
import TreeScript.Session.Host

/-
# Nodes, in a lawful logic

Expressions, and from all constructs what a node does: it ends as it should if it is known and the nodes
inside it end as they should (`keeps_dispatch`).  An evaluation from outside settles what leaves it.
-/

namespace TreeScript

open Exec

namespace Logic

variable {L : Logic} {w : L.World}
variable (K : L.Ready)
include K

/-! ## Lists of nodes -/

theorem keeps_evalAll (scope : Nat) {es : List Node} (hcode : ∀ e ∈ es, L.code w e) :
    L.KeepsAt w (evalAll scope es) := by
  induction es generalizing w with
  | nil => exact K.pure [] w
  | cons e es ih =>
    refine K.bind (K.eval (hcode e List.mem_cons_self) scope) fun w₁ h v _ => ?_
    have hes : ∀ e' ∈ es, L.code w₁ e' := fun e' he' =>
      K.code_mono h (hcode e' (List.mem_cons_of_mem e he'))
    exact K.last (ih hes) fun vs => K.pure (v :: vs)

theorem keeps_evalEntries (scope : Nat) (m : OrderedMap) {entries : List (Node × Node)}
    (hcode : ∀ entry ∈ entries, L.code w entry.1 ∧ L.code w entry.2) :
    L.KeepsAt w (evalEntries scope m entries) := by
  induction entries generalizing w m with
  | nil => exact K.pure m w
  | cons entry entries ih =>
    obtain ⟨hkey, hvalue⟩ := hcode entry List.mem_cons_self
    refine K.bind (K.eval hkey scope) fun w₁ h₁ k _ => ?_
    refine K.bind (K.eval (K.code_mono h₁ hvalue) scope) fun w₂ h₂ v _ => ?_
    refine ih (m.insert k v) fun entry' h => ?_
    have hentry := hcode entry' (List.mem_cons_of_mem entry h)
    have hle := K.le_trans h₁ h₂
    exact ⟨K.code_mono hle hentry.1, K.code_mono hle hentry.2⟩

/-! ## Variables, fields and elements -/

theorem keeps_store (slot : Nat) (name : String) (v : Value) : L.Keeps (store slot name v) := by
  refine K.seq (K.heap _) fun ty => K.seq (converts_coerce K v ty) fun w => ?_
  refine K.seq (K.heap _) fun isMutable => ?_
  split
  · exact K.seq (K.modifyHeap fun _ => rfl) fun _ => K.pure _
  · exact K.fail rfl

theorem keeps_evalDeclare {ty : TypeKind} {name : String} {value : Option Node} (scope : Nat)
    (he : L.code w (.declare ty name value)) : L.KeepsAt w (evalDeclare ty name value scope) := by
  have hdeclare : ∀ v, L.Keeps (do
      modifyHeap fun h => h.declare scope name ty v
      return v : Exec Value) := fun v => K.seq (K.modifyHeap fun _ => rfl) fun _ => K.pure v
  cases value with
  | none => exact K.seq (K.makes (Heap.makes_defaultValue ty)) hdeclare w
  | some e =>
    refine K.last (K.eval (K.part he List.mem_cons_self) scope) fun v => ?_
    exact K.seq (converts_coerce K v ty) hdeclare

theorem keeps_evalAssign {name : String} {value : Node} (scope : Nat) (he : L.code w value) :
    L.KeepsAt w (evalAssign name value scope) := by
  refine K.last (K.eval he scope) fun v => K.seq (K.heap _) fun slot => ?_
  split
  · exact keeps_store K _ name v
  · exact K.fail rfl

theorem keeps_evalConstObject {cls name : String} {value : Node} (scope : Nat)
    (he : L.code w value) : L.KeepsAt w (evalConstObject cls name value scope) := by
  refine K.last (K.eval he scope) fun v => K.seq (keeps_checkInstance K.toLawful v cls) fun u => ?_
  exact K.seq (K.modifyHeap fun _ => rfl) fun _ => K.pure u

theorem keeps_fieldSlot (v : Value) (name : String) : L.Keeps (fieldSlot v name) := by
  unfold fieldSlot
  split
  · refine K.seq (K.heap _) fun slot => ?_
    split
    · exact K.pure _
    · exact K.seq (K.heap _) fun _ => K.fail rfl
  · exact K.seq (K.heap _) fun _ => K.fail rfl

theorem keeps_evalField {target : Node} (name : String) (scope : Nat) (he : L.code w target) :
    L.KeepsAt w (evalField target name scope) := by
  refine K.last (K.eval he scope) fun v => ?_
  exact K.seq (keeps_fieldSlot K v name) fun _ => K.heap _

theorem keeps_evalFieldAssign {target : Node} {name : String} {value : Node} (scope : Nat)
    (he : L.code w (.fieldAssign target name value)) :
    L.KeepsAt w (evalFieldAssign target name value scope) := by
  refine K.bind (K.eval (K.part he List.mem_cons_self) scope) fun w₁ h₁ v _ => ?_
  refine K.next (keeps_fieldSlot K v name) fun w₂ h₂ slot => ?_
  have hvalue : L.code w value := K.part he (List.mem_cons_of_mem target List.mem_cons_self)
  refine K.last (K.eval (K.code_mono (K.le_trans h₁ h₂) hvalue) scope) fun u => ?_
  exact keeps_store K slot name u

/-- The hooks of collections are called with the keys in a list. -/
theorem keeps_callHook (i : Nat) (hook : String) (keys rest : List Value) :
    L.Keeps (do callNamedMethod i hook ((← newList keys) :: rest)) :=
  K.seq (K.makes (Heap.makes_newList keys)) fun _ => keeps_callNamedMethod K i hook _

theorem keeps_walk (lenient single : Bool) (v : Value) (keys : List Value) :
    L.Keeps (walk lenient single v keys) := by
  induction keys generalizing v with
  | nil =>
    unfold walk
    exact K.pure v
  | cons key rest ih =>
    have helement : L.Keeps (do
        let w ← ofChecked (← heap fun h => element h v key (rest.isEmpty && lenient) single)
        walk lenient single w rest) :=
      K.read (failsWith_element · v key _ single) fun r hr => K.seq (K.ofChecked hr) ih
    cases v with
    | object i => exact keeps_callHook K i "collection.get" _ []
    | _ => exact helement

theorem keeps_indexGet (v : Value) (keys : List Value) : L.Keeps (indexGet v keys) :=
  keeps_walk K true _ v keys

/-- Nothing is written to a container that is being rendered. -/
theorem keeps_unlessHeld (container v : Value) {write : Heap → Heap}
    (hwrite : ∀ s : State, (s.withHeap (write s.heap)).kernel = s.kernel) :
    L.Keeps (do
      if ← isHeld container then halt .heldContainer
      else
        modifyHeap write
        return v) := by
  refine K.seq (fun _ => K.gets fun _ _ => trivial) fun held => ?_
  split
  · exact K.halt _
  · exact K.seq (K.modifyHeap hwrite) fun _ => K.pure v

theorem keeps_setElement (container key v : Value) : L.Keeps (setElement container key v) := by
  have hplaced : ∀ i container, L.Keeps (do
      let place ← ofExcept (← heap fun h => placeOf h key (h.sequence i).size)
      if ← isHeld container then halt .heldContainer
      else
        modifyHeap fun h => h.setElement i place v
        return v) := fun i container =>
    K.read (fun h => failsWith_placeOf h key _) fun r hr => K.seq (K.ofExcept hr) fun place =>
      keeps_unlessHeld K container v fun _ => rfl
  cases container with
  | list i => exact hplaced i (.list i)
  | array i => exact hplaced i (.array i)
  | map i => exact keeps_unlessHeld K (.map i) v fun _ => rfl
  | object i => exact keeps_callHook K i "collection.set" [key] [v]
  | _ => exact K.seq (K.heap _) fun _ => K.fail rfl

theorem keeps_indexSet (v : Value) (keys : List Value) (new : Value) :
    L.Keeps (indexSet v keys new) := by
  unfold indexSet
  split
  · exact keeps_callHook K _ "collection.set" keys [new]
  · split
    · exact K.fail rfl
    · exact K.seq (keeps_walk K false _ _ _) fun container => keeps_setElement K container _ new

/-! ## Operators -/

theorem keeps_plainBinary (op : BinaryOp) (l r : Value) : L.Keeps (plainBinary op l r) := by
  unfold plainBinary
  split
  · exact K.seq (keeps_stringify K l) fun _ => K.seq (keeps_stringify K r) fun _ => K.pure _
  · exact K.read (Heap.failsWith_binary · op l r) fun _ hr => K.ofChecked hr

theorem keeps_asText (v : Value) : L.Keeps (asText v) := by
  unfold asText
  split
  · exact K.seq (keeps_objectText K _) fun _ => K.pure _
  · exact K.pure _

theorem keeps_textBinary (op : BinaryOp) (l r : Value) : L.Keeps (textBinary op l r) := by
  unfold textBinary
  split
  · exact K.pure _
  · exact K.seq (keeps_asText K l) fun l => K.seq (keeps_asText K r) fun r => keeps_plainBinary K op l r

/-- An overload is called with the operands for which it was found. -/
theorem keeps_objectBinary (op : BinaryOp) (i : Nat) (r : Value) : L.Keeps (objectBinary op i r) := by
  intro w
  refine K.bind (holds_classOf K.toLawful w i) fun w₁ _ cls hcls => ?_
  have hcall : ∀ {name m}, cls.method? name 1 = some m → L.KeepsAt w₁ (callMethod i m [r]) :=
    fun hm => keeps_callMethod K i (K.method hcls hm)
  split
  · rename_i m hm
    exact hcall hm
  · split
    · have hanswer : ∀ equal : Bool, L.Keeps (pure (.bool (equal != (op == .notEq))) : Exec Value) :=
        fun _ => K.pure _
      dsimp only
      split
      · rename_i m hm
        exact K.last (hcall hm) fun v => K.seq (keeps_toBool K v) hanswer
      · exact K.seq (K.pure _) hanswer w₁
    · exact K.seq (K.heap _) (fun _ => K.fail rfl) w₁

theorem keeps_applyBinary (op : BinaryOp) (l r : Value) : L.Keeps (applyBinary op l r) := by
  unfold applyBinary
  split
  · exact keeps_textBinary K op _ _
  · exact keeps_textBinary K op _ _
  · exact keeps_objectBinary K op _ _
  · exact keeps_plainBinary K op _ _

theorem keeps_applyUnary (op : UnaryOp) (v : Value) : L.Keeps (applyUnary op v) := by
  unfold applyUnary
  split
  · rename_i i
    intro w
    refine K.bind (holds_classOf K.toLawful w i) fun w₁ _ cls hcls => ?_
    split
    · rename_i m hm
      exact keeps_callMethod K i (K.method hcls hm)
    · split
      · exact K.seq (keeps_toBool K _) (fun _ => K.pure _) w₁
      · exact K.fail rfl w₁
  · exact K.read (Heap.failsWith_evaluateUnary · op v) fun _ hr => K.ofExcept hr

theorem keeps_evalBinary {op : BinaryOp} {left right : Node} (scope : Nat)
    (he : L.code w (.binary op left right)) : L.KeepsAt w (evalBinary op left right scope) := by
  rw [evalBinary_eq]
  refine K.bind (K.eval (K.part he List.mem_cons_self) scope) fun w₁ h₁ v _ => ?_
  have hright := K.code_mono h₁ (K.part he (List.mem_cons_of_mem left List.mem_cons_self))
  unfold afterLeft
  split
  · refine K.next (keeps_toBool K v) fun w₂ h₂ a => ?_
    split
    · exact K.pure _ w₂
    · refine K.last (K.eval (K.code_mono h₂ hright) scope) fun u => ?_
      exact K.seq (keeps_toBool K u) fun _ => K.pure _
  · exact K.last (K.eval hright scope) fun u => keeps_applyBinary K op v u

/-! ## Templates -/

theorem holds_parseExpression (w : L.World) (source : String) :
    L.holds w (parseExpression source) L.code := by
  refine K.next (K.session _) fun w₁ _ parser => ?_
  split
  · exact K.fail rfl w₁
  · split
    · exact K.reserve _ w₁
    · exact K.failNoted rfl _ w₁

/-- An expression in a template is known once it has been read. -/
theorem keeps_segmentText (scope : Nat) (segment : Segment) : L.Keeps (segmentText scope segment) := by
  cases segment with
  | text s => exact K.pure s
  | source source =>
    intro w
    refine K.bind (holds_parseExpression K w source) fun w₁ _ e he => ?_
    exact K.last (K.eval he scope) fun v => keeps_stringify K v

theorem keeps_evalTemplate (template : String) (scope : Nat) :
    L.Keeps (evalTemplate template scope) := by
  unfold evalTemplate
  split
  · exact K.fail rfl
  · exact K.seq (K.mapM fun segment _ => keeps_segmentText K scope segment) fun _ => K.pure _

/-! ## Nodes -/

theorem keeps_dispatch {e : Node} (he : L.code w e) (scope : Nat) : L.KeepsAt w (dispatch e scope) := by
  have hpart : ∀ p ∈ e.parts, L.code w p := fun p hp => K.part he hp
  cases e with
  | literal l => exact K.pure _ w
  | template t => exact keeps_evalTemplate K t scope w
  | var x => exact K.heap (fun h => h.read scope x) w
  | this => exact K.heap (fun h => h.read scope "this") w
  | listLiteral es =>
    exact K.last (keeps_evalAll K scope hpart) fun vs => K.makes (Heap.makes_newList vs)
  | mapLiteral es =>
    have hentries : ∀ entry ∈ es, L.code w entry.1 ∧ L.code w entry.2 := by
      intro entry h
      have hparts : ∀ p ∈ [entry.1, entry.2], L.code w p := fun p hp =>
        hpart p (List.mem_flatMap.mpr ⟨entry, h, hp⟩)
      exact ⟨hparts _ List.mem_cons_self, hparts _ (List.mem_cons_of_mem _ List.mem_cons_self)⟩
    refine K.last (keeps_evalEntries K scope .empty hentries) fun m => ?_
    exact K.makes (Heap.makes_newMap fun _ _ _ => rfl)
  | lambda params body => exact keeps_capture K (fun f h => by cases h) (K.lambda he)
  | declare ty x e => exact keeps_evalDeclare K scope he
  | assign x e => exact keeps_evalAssign K scope (hpart e List.mem_cons_self)
  | delete x =>
    refine K.seq (K.modifyHeap fun s => ?_) (fun _ => K.pure _) w
    unfold Heap.unbind
    split <;> rfl
  | constObject cls x e => exact keeps_evalConstObject K scope (hpart e List.mem_cons_self)
  | binary op l r => exact keeps_evalBinary K scope he
  | unary op e =>
    exact K.last (K.eval (hpart e List.mem_cons_self) scope) fun v => keeps_applyUnary K op v
  | ternary c yes no =>
    refine K.bind (K.eval (hpart c List.mem_cons_self) scope) fun w₁ h₁ v _ => ?_
    refine K.next (keeps_toBool K v) fun w₂ h₂ b => ?_
    have h := K.le_trans h₁ h₂
    split
    · exact K.eval (K.code_mono h (hpart yes (by simp [Node.parts]))) scope
    · exact K.eval (K.code_mono h (hpart no (by simp [Node.parts]))) scope
  | index e keys =>
    refine K.bind (K.eval (hpart e List.mem_cons_self) scope) fun w₁ h v _ => ?_
    have hkeys : ∀ k ∈ keys, L.code w₁ k := fun k hk =>
      K.code_mono h (hpart k (List.mem_cons_of_mem e hk))
    exact K.last (keeps_evalAll K scope hkeys) fun ks => keeps_indexGet K v ks
  | indexAssign e keys new =>
    refine K.bind (K.eval (hpart e List.mem_cons_self) scope) fun w₁ h₁ v _ => ?_
    have hkeys : ∀ k ∈ keys, L.code w₁ k := fun k hk =>
      K.code_mono h₁ (hpart k (List.mem_cons_of_mem e (List.mem_cons_of_mem new hk)))
    refine K.bind (keeps_evalAll K scope hkeys) fun w₂ h₂ ks _ => ?_
    have hnew := K.code_mono (K.le_trans h₁ h₂) (hpart new (by simp [Node.parts]))
    exact K.last (K.eval hnew scope) fun u => keeps_indexSet K v ks u
  | field e x => exact keeps_evalField K x scope (hpart e List.mem_cons_self)
  | fieldAssign e x new => exact keeps_evalFieldAssign K scope he
  | call site f args => exact keeps_resolved K he scope false
  | methodCall e m args => exact keeps_evalMethodCall K scope he
  | block es => exact keeps_evalBlock K scope he
  | branch arms otherwise => exact keeps_evalBranch K scope he
  | whileLoop c body => exact keeps_evalWhile K scope he
  | forRange x ty a b direction body => exact keeps_evalRange K scope he
  | forEach x e body => exact keeps_evalEach K scope he
  | breakWith e =>
    refine K.last (keeps_evalOptional K scope fun e' h => ?_) fun _ => K.raise trivial
    exact hpart e' (Option.mem_toList.mpr h)
  | continueLoop => exact K.raise (by trivial) w
  | returnWith e => exact keeps_evalReturn K scope he
  | yieldWith e => exact keeps_evalYield K scope he
  | throwValue e => exact keeps_evalThrow K scope (hpart e List.mem_cons_self)
  | tryCatch body x handler => exact keeps_evalTry K scope he
  | functionDef d => exact K.last (K.addFunction he) fun _ => K.pure _
  | classDef d =>
    have hdefine := K.last (K.defineClass he) fun _ => K.pure Value.null
    simp only [bind_assoc] at hdefine
    exact hdefine

/-! ## Evaluations from outside -/

theorem keeps_settleTop {x : Exec Value} (hx : L.KeepsAt w x) : L.KeepsAt w (settleTop x) := by
  refine K.handle (K.settle hx) ?_ ?_
  · intro e y hy
    cases hy
  · intro w₁ _ g y hy
    cases g with
    | throwValue v =>
      cases hy
      refine K.read (failsWith_exceptionText · v) (fun r hr => ?_) w₁
      exact K.seq (K.ofChecked hr) fun _ => K.fail rfl
    | _ => cases hy

theorem keeps_evaluateIn {e : Node} (scope : Nat)
    (hreset : L.Keeps (modifySession fun s => { s with meter := s.meter.reset, resume := [] }))
    (he : L.code w e) : L.KeepsAt w (evaluateIn e scope) :=
  K.next hreset fun _ h _ => keeps_settleTop K (K.eval (K.code_mono h he) scope)

theorem keeps_evaluate {e : Node}
    (hreset : L.Keeps (modifySession fun s => { s with meter := s.meter.reset, resume := [] }))
    (he : L.code w e) : L.KeepsAt w (evaluate e) :=
  K.next (K.session _) fun _ h root => keeps_evaluateIn K root hreset (K.code_mono h he)

/-- A function is called with the number of arguments for which the catalog has it. -/
theorem keeps_callFunction (name : String) (args : List Value) (hreset : L.Keeps (meter Meter.reset)) :
    L.Keeps (callFunction name args) := by
  intro w
  have hread : L.holds w (session fun s => s.catalog.callee? name args.length)
      fun w' found => ∀ callee ∈ found, L.function w' callee.2 args.length :=
    K.gets fun _ hs _ hcallee => K.callee hs hcallee
  refine K.bind hread fun w₁ h₁ found hfound => ?_
  cases found with
  | none => exact K.fail rfl w₁
  | some callee =>
    refine K.next hreset fun w₂ h₂ _ => K.next (K.session _) fun w₃ h₃ root => ?_
    exact keeps_settleTop K (keeps_invoke K _ root (K.function_mono (K.le_trans h₂ h₃) (hfound callee rfl)))

end Logic
end TreeScript
