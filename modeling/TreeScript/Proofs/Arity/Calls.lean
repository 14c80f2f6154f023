import TreeScript.Proofs.Simulation.Lawful

/-
# The calls in code

A call site has a number, and the call that stands there a name and a number of arguments, which are its
*label*.  Numbering a tree gives the sites of its calls, from left to right, the numbers from a first one
on, and changes no label (`Node.calls_numbered`).  So a list of labels, one for each site that there is,
says what stands at every site, and grows as trees are numbered: code is `Labelled` by such a list if
each of its calls has the label of its site.
-/

namespace TreeScript

/-- The name of a call and the number of its arguments. -/
abbrev CallLabel := String × Nat

/-! ## Calls -/

mutual

/-- The calls in a node, wherever they stand, with their sites. -/
def Node.calls : Node → List (Nat × CallLabel)
  | .literal _ | .template _ | .var _ | .this | .delete _ | .continueLoop => []
  | .listLiteral es | .block es => callsAll es
  | .mapLiteral es => callsPairs es
  | .lambda _ e | .assign _ e | .constObject _ _ e | .unary _ e | .field e _ | .throwValue e => e.calls
  | .declare _ _ e | .breakWith e | .returnWith e | .yieldWith e => callsOption e
  | .binary _ a b | .fieldAssign a _ b | .whileLoop a b | .forEach _ a b | .tryCatch a _ b =>
    a.calls ++ b.calls
  | .ternary a b c | .forRange _ _ a b _ c => a.calls ++ (b.calls ++ c.calls)
  | .index e es | .methodCall e _ es => e.calls ++ callsAll es
  | .indexAssign a es b => a.calls ++ (callsAll es ++ b.calls)
  | .call site name es => (site, name, es.length) :: callsAll es
  | .branch arms e => callsPairs arms ++ callsOption e
  | .functionDef d => callsFunction d
  | .classDef d => callsClass d

/-- The calls in an optional node. -/
def callsOption : Option Node → List (Nat × CallLabel)
  | none => []
  | some e => e.calls

/-- The calls in nodes. -/
def callsAll : List Node → List (Nat × CallLabel)
  | [] => []
  | e :: es => e.calls ++ callsAll es

/-- The calls in pairs of nodes. -/
def callsPairs : List (Node × Node) → List (Nat × CallLabel)
  | [] => []
  | (a, b) :: es => a.calls ++ (b.calls ++ callsPairs es)

/-- The calls in the body of a function. -/
def callsFunction : FunctionDecl Node → List (Nat × CallLabel)
  | ⟨_, _, _, body, _⟩ => body.calls

/-- The calls in the bodies of functions. -/
def callsFunctions : List (FunctionDecl Node) → List (Nat × CallLabel)
  | [] => []
  | d :: ds => callsFunction d ++ callsFunctions ds

/-- The calls in the default of a field. -/
def callsField : FieldDecl Node → List (Nat × CallLabel)
  | ⟨_, _, e⟩ => callsOption e

/-- The calls in the defaults of fields. -/
def callsFields : List (FieldDecl Node) → List (Nat × CallLabel)
  | [] => []
  | d :: ds => callsField d ++ callsFields ds

/-- The calls in the body of a constructor. -/
def callsConstructor : ConstructorDecl Node → List (Nat × CallLabel)
  | ⟨_, body⟩ => body.calls

/-- The calls in the bodies of constructors. -/
def callsConstructors : List (ConstructorDecl Node) → List (Nat × CallLabel)
  | [] => []
  | d :: ds => callsConstructor d ++ callsConstructors ds

/-- The calls in a class. -/
def callsClass : ClassDecl Node → List (Nat × CallLabel)
  | ⟨_, _, fields, methods, ctors⟩ =>
    callsFields fields ++ (callsFunctions methods ++ callsConstructors ctors)

end

/-! ### Calls in lists -/

theorem callsOption_eq (e : Option Node) : callsOption e = e.toList.flatMap Node.calls := by
  cases e with
  | none => rw [callsOption, Option.toList_none, List.flatMap_nil]
  | some e => rw [callsOption, Option.toList_some, List.flatMap_singleton]

theorem callsAll_eq (es : List Node) : callsAll es = es.flatMap Node.calls := by
  induction es with
  | nil => rw [callsAll, List.flatMap_nil]
  | cons e es ih => rw [callsAll, List.flatMap_cons, ih]

theorem callsPairs_eq (es : List (Node × Node)) :
    callsPairs es = (es.flatMap fun (a, b) => [a, b]).flatMap Node.calls := by
  induction es with
  | nil => rw [callsPairs, List.flatMap_nil, List.flatMap_nil]
  | cons e es ih =>
    rw [callsPairs, List.flatMap_cons, List.flatMap_append, ih, List.flatMap_cons,
      List.flatMap_singleton, List.append_assoc]

theorem callsFunctions_eq (ds : List (FunctionDecl Node)) :
    callsFunctions ds = ds.flatMap fun d => d.body.calls := by
  induction ds with
  | nil => rw [callsFunctions, List.flatMap_nil]
  | cons d ds ih => rw [callsFunctions, List.flatMap_cons, ih, callsFunction]

theorem callsFields_eq (ds : List (FieldDecl Node)) :
    callsFields ds = ds.flatMap fun d => callsOption d.default? := by
  induction ds with
  | nil => rw [callsFields, List.flatMap_nil]
  | cons d ds ih => rw [callsFields, List.flatMap_cons, ih, callsField]

theorem callsConstructors_eq (ds : List (ConstructorDecl Node)) :
    callsConstructors ds = ds.flatMap fun d => d.body.calls := by
  induction ds with
  | nil => rw [callsConstructors, List.flatMap_nil]
  | cons d ds ih => rw [callsConstructors, List.flatMap_cons, ih, callsConstructor]

/-! ### Calls in parts -/

/-- The calls in the parts of a node are calls in the node. -/
theorem Node.calls_of_part {e p : Node} (hp : p ∈ e.parts) {c : Nat × CallLabel} (hc : c ∈ p.calls) :
    c ∈ e.calls := by
  have hparts : c ∈ e.parts.flatMap Node.calls := List.mem_flatMap.mpr ⟨p, hp, hc⟩
  cases e <;> simp only [Node.parts, Node.calls, callsOption_eq, callsAll_eq, callsPairs_eq,
    List.flatMap_append, List.flatMap_cons, List.flatMap_nil, List.append_nil, List.mem_append,
    List.mem_cons] at hparts ⊢ <;> grind

/-! ## Numbering -/

/-- Calls at the sites from a number on. -/
def callsFrom : Nat → List (Nat × CallLabel) → List (Nat × CallLabel)
  | _, [] => []
  | n, (_, label) :: cs => (n, label) :: callsFrom (n + 1) cs

theorem callsFrom_append (n : Nat) (cs cs' : List (Nat × CallLabel)) :
    callsFrom n (cs ++ cs') = callsFrom n cs ++ callsFrom (n + cs.length) cs' := by
  induction cs generalizing n with
  | nil => rfl
  | cons c cs ih =>
    rw [List.cons_append, callsFrom, callsFrom, ih, List.length_cons, List.cons_append,
      Nat.add_assoc, Nat.add_comm 1]

/-- A numbering gives code whose calls are those in front, and then further calls at the next sites. -/
def Numbers {α : Type} (front : List (Nat × CallLabel)) (x : StateM Nat α)
    (calls : α → List (Nat × CallLabel)) (cs : List (Nat × CallLabel)) : Prop :=
  ∀ n, calls (x n).1 = front ++ callsFrom n cs ∧ (x n).2 = n + cs.length

namespace Numbers

variable {α β : Type} {front cs cs' : List (Nat × CallLabel)}
variable {calls : α → List (Nat × CallLabel)} {calls' : β → List (Nat × CallLabel)}

theorem pure {a : α} (h : calls a = front) : Numbers front (pure a) calls [] := by
  intro n
  refine ⟨?_, rfl⟩
  rw [callsFrom, List.append_nil, ← h]
  rfl

/-- One numbering after the other. -/
theorem bind {x : StateM Nat α} {f : α → StateM Nat β} (hx : Numbers [] x calls cs)
    (hf : ∀ a, Numbers (front ++ calls a) (f a) calls' cs') :
    Numbers front (x >>= f) calls' (cs ++ cs') := by
  intro n
  obtain ⟨hcalls, hnext⟩ := hx n
  obtain ⟨hcalls', hnext'⟩ := hf (x n).1 (x n).2
  constructor
  · refine hcalls'.trans ?_
    rw [hcalls, hnext, callsFrom_append, List.nil_append, List.append_assoc]
  · refine hnext'.trans ?_
    rw [hnext, List.length_append, Nat.add_assoc]

/-- The last part. -/
theorem map {x : StateM Nat α} {g : α → β} (hx : Numbers [] x calls cs)
    (hg : ∀ n, calls' (g (x n).1) = front ++ calls (x n).1) :
    Numbers front (do return g (← x)) calls' cs := by
  intro n
  obtain ⟨hcalls, hnext⟩ := hx n
  refine ⟨?_, hnext⟩
  refine (hg n).trans ?_
  rw [hcalls, List.nil_append]

end Numbers

theorem length_numberAll (es : List Node) (n : Nat) : (numberAll es n).1.length = es.length := by
  induction es generalizing n with
  | nil => rw [numberAll]; rfl
  | cons e es ih =>
    rw [numberAll]
    exact congrArg (· + 1) (ih _)

mutual

/-- Numbering gives the calls of a node the sites from a number on. -/
theorem Node.numbers (e : Node) : Numbers [] e.number Node.calls e.calls := by
  cases e <;> rw [Node.number, Node.calls]
  case literal | template | var | this | delete | continueLoop =>
    exact .pure (by rw [Node.calls])
  case listLiteral es => exact (numbers_all es).map fun _ => by rw [Node.calls]; rfl
  case block es => exact (numbers_all es).map fun _ => by rw [Node.calls]; rfl
  case mapLiteral es => exact (numbers_pairs es).map fun _ => by rw [Node.calls]; rfl
  case lambda ps e => exact e.numbers.map fun _ => by rw [Node.calls]; rfl
  case assign x e => exact e.numbers.map fun _ => by rw [Node.calls]; rfl
  case constObject c x e => exact e.numbers.map fun _ => by rw [Node.calls]; rfl
  case unary op e => exact e.numbers.map fun _ => by rw [Node.calls]; rfl
  case field e x => exact e.numbers.map fun _ => by rw [Node.calls]; rfl
  case throwValue e => exact e.numbers.map fun _ => by rw [Node.calls]; rfl
  case declare ty x e => exact (numbers_option e).map fun _ => by rw [Node.calls]; rfl
  case breakWith e => exact (numbers_option e).map fun _ => by rw [Node.calls]; rfl
  case returnWith e => exact (numbers_option e).map fun _ => by rw [Node.calls]; rfl
  case yieldWith e => exact (numbers_option e).map fun _ => by rw [Node.calls]; rfl
  case binary op a b => exact a.numbers.bind fun _ => b.numbers.map fun _ => by rw [Node.calls]; rfl
  case fieldAssign a x b =>
    exact a.numbers.bind fun _ => b.numbers.map fun _ => by rw [Node.calls]; rfl
  case whileLoop a b => exact a.numbers.bind fun _ => b.numbers.map fun _ => by rw [Node.calls]; rfl
  case forEach x a b => exact a.numbers.bind fun _ => b.numbers.map fun _ => by rw [Node.calls]; rfl
  case tryCatch a x b =>
    exact a.numbers.bind fun _ => b.numbers.map fun _ => by rw [Node.calls]; rfl
  case ternary a b c =>
    refine a.numbers.bind fun _ => b.numbers.bind fun _ => c.numbers.map fun _ => ?_
    rw [Node.calls, List.nil_append, List.append_assoc]
  case forRange x ty a b direction c =>
    refine a.numbers.bind fun _ => b.numbers.bind fun _ => c.numbers.map fun _ => ?_
    rw [Node.calls, List.nil_append, List.append_assoc]
  case index e es =>
    exact e.numbers.bind fun _ => (numbers_all es).map fun _ => by rw [Node.calls]; rfl
  case methodCall e m es =>
    exact e.numbers.bind fun _ => (numbers_all es).map fun _ => by rw [Node.calls]; rfl
  case indexAssign a es b =>
    refine a.numbers.bind fun _ => (numbers_all es).bind fun _ => b.numbers.map fun _ => ?_
    rw [Node.calls, List.nil_append, List.append_assoc]
  case call site name es =>
    have hsite : Numbers [] (modifyGet fun next => (next, next + 1) : StateM Nat Nat)
        (fun site => [(site, name, es.length)]) [(site, name, es.length)] := fun n => ⟨rfl, rfl⟩
    refine hsite.bind fun _ => (numbers_all es).map fun n => ?_
    rw [Node.calls, length_numberAll]
    rfl
  case branch arms e =>
    exact (numbers_pairs arms).bind fun _ => (numbers_option e).map fun _ => by rw [Node.calls]; rfl
  case functionDef d => exact (numbers_function d).map fun _ => by rw [Node.calls]; rfl
  case classDef d => exact (numbers_class d).map fun _ => by rw [Node.calls]; rfl

theorem numbers_option (e : Option Node) : Numbers [] (numberOption e) callsOption (callsOption e) := by
  cases e <;> rw [numberOption, callsOption]
  case none => exact .pure (by rw [callsOption])
  case some e => exact e.numbers.map fun _ => by rw [callsOption]; rfl

theorem numbers_all (es : List Node) : Numbers [] (numberAll es) callsAll (callsAll es) := by
  cases es <;> rw [numberAll, callsAll]
  case nil => exact .pure (by rw [callsAll])
  case cons e es => exact e.numbers.bind fun _ => (numbers_all es).map fun _ => by rw [callsAll]; rfl

theorem numbers_pairs (es : List (Node × Node)) :
    Numbers [] (numberPairs es) callsPairs (callsPairs es) := by
  rcases es with _ | ⟨⟨a, b⟩, es⟩ <;> rw [numberPairs, callsPairs]
  case nil => exact .pure (by rw [callsPairs])
  case cons =>
    refine a.numbers.bind fun _ => b.numbers.bind fun _ => (numbers_pairs es).map fun _ => ?_
    rw [callsPairs, List.nil_append, List.append_assoc]

theorem numbers_function (d : FunctionDecl Node) :
    Numbers [] (numberFunction d) callsFunction (callsFunction d) := by
  obtain ⟨name, params, returns, body, co⟩ := d
  rw [numberFunction, callsFunction]
  exact body.numbers.map fun _ => by rw [callsFunction]; rfl

theorem numbers_functions (ds : List (FunctionDecl Node)) :
    Numbers [] (numberFunctions ds) callsFunctions (callsFunctions ds) := by
  cases ds <;> rw [numberFunctions, callsFunctions]
  case nil => exact .pure (by rw [callsFunctions])
  case cons d ds =>
    exact (numbers_function d).bind fun _ => (numbers_functions ds).map fun _ => by
      rw [callsFunctions]; rfl

theorem numbers_field (d : FieldDecl Node) : Numbers [] (numberField d) callsField (callsField d) := by
  obtain ⟨name, ty, e⟩ := d
  rw [numberField, callsField]
  exact (numbers_option e).map fun _ => by rw [callsField]; rfl

theorem numbers_fields (ds : List (FieldDecl Node)) :
    Numbers [] (numberFields ds) callsFields (callsFields ds) := by
  cases ds <;> rw [numberFields, callsFields]
  case nil => exact .pure (by rw [callsFields])
  case cons d ds =>
    exact (numbers_field d).bind fun _ => (numbers_fields ds).map fun _ => by rw [callsFields]; rfl

theorem numbers_constructor (d : ConstructorDecl Node) :
    Numbers [] (numberConstructor d) callsConstructor (callsConstructor d) := by
  obtain ⟨params, body⟩ := d
  rw [numberConstructor, callsConstructor]
  exact body.numbers.map fun _ => by rw [callsConstructor]; rfl

theorem numbers_constructors (ds : List (ConstructorDecl Node)) :
    Numbers [] (numberConstructors ds) callsConstructors (callsConstructors ds) := by
  cases ds <;> rw [numberConstructors, callsConstructors]
  case nil => exact .pure (by rw [callsConstructors])
  case cons d ds =>
    exact (numbers_constructor d).bind fun _ => (numbers_constructors ds).map fun _ => by
      rw [callsConstructors]; rfl

theorem numbers_class (d : ClassDecl Node) : Numbers [] (numberClass d) callsClass (callsClass d) := by
  obtain ⟨name, supers, fields, methods, ctors⟩ := d
  rw [numberClass, callsClass]
  refine (numbers_fields fields).bind fun _ => (numbers_functions methods).bind fun _ =>
    (numbers_constructors ctors).map fun _ => ?_
  rw [callsClass, List.nil_append, List.append_assoc]

end

/-! ### Code without calls -/

/-- A numbering hands out no number and gives code as it is. -/
def LeavesAsIs {α : Type} (x : StateM Nat α) (a : α) : Prop := ∀ n, x n = (a, n)

namespace LeavesAsIs

variable {α β : Type} {x : StateM Nat α} {a : α}

theorem pure (a : α) : LeavesAsIs (pure a) a := fun _ => rfl

theorem bind {f : α → StateM Nat β} {b : β} (hx : LeavesAsIs x a) (hf : LeavesAsIs (f a) b) :
    LeavesAsIs (x >>= f) b := by
  intro n
  show f (x n).1 (x n).2 = _
  rw [hx n]
  exact hf n

theorem map (hx : LeavesAsIs x a) (g : α → β) : LeavesAsIs (do return g (← x)) (g a) :=
  hx.bind (pure (g a))

end LeavesAsIs

mutual

/-- Code without calls is numbered by leaving it as it is. -/
theorem Node.leaves_as_is (e : Node) (h : e.calls = []) : LeavesAsIs e.number e := by
  cases e <;> rw [Node.number] <;> rw [Node.calls] at h <;>
    try simp only [List.append_eq_nil_iff, reduceCtorEq] at h
  case literal | template | var | this | delete | continueLoop => exact .pure _
  case listLiteral es | block es => exact (leaves_all es h).map _
  case mapLiteral es => exact (leaves_pairs es h).map _
  case lambda ps e => exact (e.leaves_as_is h).map _
  case assign x e => exact (e.leaves_as_is h).map _
  case constObject c x e => exact (e.leaves_as_is h).map _
  case unary op e => exact (e.leaves_as_is h).map _
  case field e x => exact (e.leaves_as_is h).map _
  case throwValue e => exact (e.leaves_as_is h).map _
  case declare ty x e => exact (leaves_option e h).map _
  case breakWith e | returnWith e | yieldWith e => exact (leaves_option e h).map _
  case binary op a b => exact (a.leaves_as_is h.1).bind ((b.leaves_as_is h.2).map _)
  case fieldAssign a x b => exact (a.leaves_as_is h.1).bind ((b.leaves_as_is h.2).map _)
  case whileLoop a b => exact (a.leaves_as_is h.1).bind ((b.leaves_as_is h.2).map _)
  case forEach x a b => exact (a.leaves_as_is h.1).bind ((b.leaves_as_is h.2).map _)
  case tryCatch a x b => exact (a.leaves_as_is h.1).bind ((b.leaves_as_is h.2).map _)
  case ternary a b c =>
    exact (a.leaves_as_is h.1).bind ((b.leaves_as_is h.2.1).bind ((c.leaves_as_is h.2.2).map _))
  case forRange x ty a b dir c =>
    exact (a.leaves_as_is h.1).bind ((b.leaves_as_is h.2.1).bind ((c.leaves_as_is h.2.2).map _))
  case index e es => exact (e.leaves_as_is h.1).bind ((leaves_all es h.2).map _)
  case methodCall e m es => exact (e.leaves_as_is h.1).bind ((leaves_all es h.2).map _)
  case indexAssign a es b =>
    exact (a.leaves_as_is h.1).bind ((leaves_all es h.2.1).bind ((b.leaves_as_is h.2.2).map _))
  case branch arms e => exact (leaves_pairs arms h.1).bind ((leaves_option e h.2).map _)
  case functionDef d => exact (leaves_function d h).map _
  case classDef d => exact (leaves_class d h).map _

theorem leaves_option (e : Option Node) (h : callsOption e = []) : LeavesAsIs (numberOption e) e := by
  cases e <;> rw [numberOption] <;> rw [callsOption] at h
  case none => exact .pure _
  case some e => exact (e.leaves_as_is h).map _

theorem leaves_all (es : List Node) (h : callsAll es = []) : LeavesAsIs (numberAll es) es := by
  cases es <;> rw [numberAll] <;> rw [callsAll] at h
  case nil => exact .pure _
  case cons e es =>
    obtain ⟨he, hes⟩ := List.append_eq_nil_iff.mp h
    exact (e.leaves_as_is he).bind ((leaves_all es hes).map _)

theorem leaves_pairs (es : List (Node × Node)) (h : callsPairs es = []) :
    LeavesAsIs (numberPairs es) es := by
  rcases es with _ | ⟨⟨a, b⟩, es⟩ <;> rw [numberPairs] <;> rw [callsPairs] at h
  · exact .pure _
  · obtain ⟨ha, h⟩ := List.append_eq_nil_iff.mp h
    obtain ⟨hb, hes⟩ := List.append_eq_nil_iff.mp h
    exact (a.leaves_as_is ha).bind ((b.leaves_as_is hb).bind ((leaves_pairs es hes).map _))

theorem leaves_function (d : FunctionDecl Node) (h : callsFunction d = []) :
    LeavesAsIs (numberFunction d) d := by
  obtain ⟨name, params, returns, body, co⟩ := d
  rw [numberFunction]
  rw [callsFunction] at h
  exact (body.leaves_as_is h).map _

theorem leaves_functions (ds : List (FunctionDecl Node)) (h : callsFunctions ds = []) :
    LeavesAsIs (numberFunctions ds) ds := by
  cases ds <;> rw [numberFunctions] <;> rw [callsFunctions] at h
  case nil => exact .pure _
  case cons d ds =>
    obtain ⟨hd, hds⟩ := List.append_eq_nil_iff.mp h
    exact (leaves_function d hd).bind ((leaves_functions ds hds).map _)

theorem leaves_field (d : FieldDecl Node) (h : callsField d = []) : LeavesAsIs (numberField d) d := by
  obtain ⟨name, ty, e⟩ := d
  rw [numberField]
  rw [callsField] at h
  exact (leaves_option e h).map _

theorem leaves_fields (ds : List (FieldDecl Node)) (h : callsFields ds = []) :
    LeavesAsIs (numberFields ds) ds := by
  cases ds <;> rw [numberFields] <;> rw [callsFields] at h
  case nil => exact .pure _
  case cons d ds =>
    obtain ⟨hd, hds⟩ := List.append_eq_nil_iff.mp h
    exact (leaves_field d hd).bind ((leaves_fields ds hds).map _)

theorem leaves_constructor (d : ConstructorDecl Node) (h : callsConstructor d = []) :
    LeavesAsIs (numberConstructor d) d := by
  obtain ⟨params, body⟩ := d
  rw [numberConstructor]
  rw [callsConstructor] at h
  exact (body.leaves_as_is h).map _

theorem leaves_constructors (ds : List (ConstructorDecl Node)) (h : callsConstructors ds = []) :
    LeavesAsIs (numberConstructors ds) ds := by
  cases ds <;> rw [numberConstructors] <;> rw [callsConstructors] at h
  case nil => exact .pure _
  case cons d ds =>
    obtain ⟨hd, hds⟩ := List.append_eq_nil_iff.mp h
    exact (leaves_constructor d hd).bind ((leaves_constructors ds hds).map _)

theorem leaves_class (d : ClassDecl Node) (h : callsClass d = []) : LeavesAsIs (numberClass d) d := by
  obtain ⟨name, supers, fields, methods, ctors⟩ := d
  rw [numberClass]
  rw [callsClass] at h
  obtain ⟨hfields, h⟩ := List.append_eq_nil_iff.mp h
  obtain ⟨hmethods, hctors⟩ := List.append_eq_nil_iff.mp h
  exact (leaves_fields fields hfields).bind
    ((leaves_functions methods hmethods).bind ((leaves_constructors ctors hctors).map _))

end

/-! ## Labels -/

/-- The calls in a node have the labels of their sites. -/
def Labelled (labels : List CallLabel) (e : Node) : Prop := ∀ c ∈ e.calls, labels[c.1]? = some c.2

section
variable {labels labels' : List CallLabel} {e p : Node}

/-- The sites that there are keep their labels. -/
theorem getElem?_of_prefix {α : Type} {l l' : List α} (h : l <+: l') {i : Nat} {a : α}
    (ha : l[i]? = some a) : l'[i]? = some a := by
  obtain ⟨t, rfl⟩ := h
  obtain ⟨hlt, rfl⟩ := List.getElem?_eq_some_iff.mp ha
  rw [List.getElem?_append_left hlt, List.getElem?_eq_getElem hlt]

theorem Labelled.mono (h : labels <+: labels') (he : Labelled labels e) : Labelled labels' e :=
  fun c hc => getElem?_of_prefix h (he c hc)

theorem Labelled.part (he : Labelled labels e) (hp : p ∈ e.parts) : Labelled labels p :=
  fun c hc => he c (Node.calls_of_part hp hc)

theorem Labelled.lambda {ps : List Param} (he : Labelled labels (.lambda ps e)) : Labelled labels e :=
  fun c hc => he c (by rwa [Node.calls])

theorem Labelled.function {d : FunctionDecl Node} (he : Labelled labels (.functionDef d)) :
    Labelled labels d.body :=
  fun c hc => he c (by rwa [Node.calls, callsFunction])

theorem Labelled.call {site : Nat} {name : String} {args : List Node}
    (he : Labelled labels (.call site name args)) : labels[site]? = some (name, args.length) :=
  he (site, name, args.length) (by rw [Node.calls]; exact List.mem_cons_self)

/-- Calls at the sites after those that there are have the labels that are added. -/
theorem getElem?_of_mem_callsFrom (labels : List CallLabel) (cs : List (Nat × CallLabel))
    {c : Nat × CallLabel} (hc : c ∈ callsFrom labels.length cs) :
    (labels ++ cs.map Prod.snd)[c.1]? = some c.2 := by
  induction cs generalizing labels with
  | nil => cases hc
  | cons c' cs ih =>
    -- the first call has the next label, and the others are labelled after it
    have happend : labels ++ (c' :: cs).map Prod.snd = (labels ++ [c'.2]) ++ cs.map Prod.snd := by
      rw [List.map_cons, List.append_cons]
    rw [happend]
    rcases List.mem_cons.mp hc with rfl | hc
    · rw [List.append_assoc, List.getElem?_append_right (Nat.le_refl _), Nat.sub_self]
      rfl
    · refine ih (labels ++ [c'.2]) ?_
      rwa [List.length_append, List.length_singleton]

/-- **Numbering labels.**  A tree that is numbered after the sites that there are is labelled once its own
labels have been added to theirs. -/
theorem labelled_numbered (labels : List CallLabel) (e : Node) :
    Labelled (labels ++ e.calls.map Prod.snd) (e.numbered labels.length).1 ∧
      (e.numbered labels.length).2 = (labels ++ e.calls.map Prod.snd).length := by
  obtain ⟨hcalls, hnext⟩ := e.numbers labels.length
  refine ⟨fun c hc => ?_, ?_⟩
  · change c ∈ (e.number labels.length).1.calls at hc
    rw [hcalls, List.nil_append] at hc
    exact getElem?_of_mem_callsFrom labels e.calls hc
  · rw [List.length_append, List.length_map]
    exact hnext

end

end TreeScript
