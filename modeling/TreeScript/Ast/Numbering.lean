import TreeScript.Ast.Node

/-!
# Numbering call sites

Before a tree is evaluated, each of its call sites is given a memory cell of its own.  Numbering
walks the tree from left to right and hands out one number after the other; nothing else changes.
-/

namespace TreeScript

mutual

/-- Number the call sites of a node; the state is the next free number. -/
def Node.number : Node → StateM Nat Node
  | .literal v => pure (.literal v)
  | .template t => pure (.template t)
  | .var x => pure (.var x)
  | .this => pure .this
  | .listLiteral es => return .listLiteral (← numberAll es)
  | .mapLiteral es => return .mapLiteral (← numberPairs es)
  | .lambda ps body => return .lambda ps (← body.number)
  | .declare ty x v => return .declare ty x (← numberOption v)
  | .assign x v => return .assign x (← v.number)
  | .delete x => pure (.delete x)
  | .constObject c x v => return .constObject c x (← v.number)
  | .binary op l r => return .binary op (← l.number) (← r.number)
  | .unary op e => return .unary op (← e.number)
  | .ternary c y n => return .ternary (← c.number) (← y.number) (← n.number)
  | .index t ks => return .index (← t.number) (← numberAll ks)
  | .indexAssign t ks v => return .indexAssign (← t.number) (← numberAll ks) (← v.number)
  | .field t x => return .field (← t.number) x
  | .fieldAssign t x v => return .fieldAssign (← t.number) x (← v.number)
  | .call _ f args => do
    let site ← modifyGet fun next => (next, next + 1)
    return .call site f (← numberAll args)
  | .methodCall t m args => return .methodCall (← t.number) m (← numberAll args)
  | .block ss => return .block (← numberAll ss)
  | .branch arms other => return .branch (← numberPairs arms) (← numberOption other)
  | .whileLoop c body => return .whileLoop (← c.number) (← body.number)
  | .forRange x ty a b dir body =>
    return .forRange x ty (← a.number) (← b.number) dir (← body.number)
  | .forEach x e body => return .forEach x (← e.number) (← body.number)
  | .breakWith v => return .breakWith (← numberOption v)
  | .continueLoop => pure .continueLoop
  | .returnWith v => return .returnWith (← numberOption v)
  | .yieldWith v => return .yieldWith (← numberOption v)
  | .throwValue v => return .throwValue (← v.number)
  | .tryCatch body x h => return .tryCatch (← body.number) x (← h.number)
  | .functionDef d => return .functionDef (← numberFunction d)
  | .classDef d => return .classDef (← numberClass d)

/-- Number an optional node. -/
def numberOption : Option Node → StateM Nat (Option Node)
  | none => pure none
  | some e => return some (← e.number)

/-- Number nodes in order. -/
def numberAll : List Node → StateM Nat (List Node)
  | [] => pure []
  | e :: es => return (← e.number) :: (← numberAll es)

/-- Number pairs of nodes in order. -/
def numberPairs : List (Node × Node) → StateM Nat (List (Node × Node))
  | [] => pure []
  | (a, b) :: es => return (← a.number, ← b.number) :: (← numberPairs es)

/-- Number the body of a function. -/
def numberFunction : FunctionDecl Node → StateM Nat (FunctionDecl Node)
  | ⟨name, params, returns, body, co⟩ => return ⟨name, params, returns, ← body.number, co⟩

/-- Number functions in order. -/
def numberFunctions : List (FunctionDecl Node) → StateM Nat (List (FunctionDecl Node))
  | [] => pure []
  | d :: ds => return (← numberFunction d) :: (← numberFunctions ds)

/-- Number the default of a field. -/
def numberField : FieldDecl Node → StateM Nat (FieldDecl Node)
  | ⟨name, ty, e⟩ => return ⟨name, ty, ← numberOption e⟩

/-- Number the defaults of fields in order. -/
def numberFields : List (FieldDecl Node) → StateM Nat (List (FieldDecl Node))
  | [] => pure []
  | d :: ds => return (← numberField d) :: (← numberFields ds)

/-- Number the body of a constructor. -/
def numberConstructor : ConstructorDecl Node → StateM Nat (ConstructorDecl Node)
  | ⟨params, body⟩ => return ⟨params, ← body.number⟩

/-- Number the bodies of constructors in order. -/
def numberConstructors : List (ConstructorDecl Node) → StateM Nat (List (ConstructorDecl Node))
  | [] => pure []
  | d :: ds => return (← numberConstructor d) :: (← numberConstructors ds)

/-- Number the fields, methods and constructors of a class. -/
def numberClass : ClassDecl Node → StateM Nat (ClassDecl Node)
  | ⟨name, supers, fields, methods, ctors⟩ =>
    return ⟨name, supers, ← numberFields fields, ← numberFunctions methods,
      ← numberConstructors ctors⟩

end

/-- The tree with its call sites numbered from `first`, and the next free number. -/
def Node.numbered (e : Node) (first : Nat) : Node × Nat := e.number.run first

/-- The declaration with its call sites numbered from `first`, and the next free number. -/
def ClassDecl.numbered (d : ClassDecl Node) (first : Nat) : ClassDecl Node × Nat :=
  (numberClass d).run first

end TreeScript
