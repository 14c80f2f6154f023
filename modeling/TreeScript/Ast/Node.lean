import TreeScript.Ast.TypeKind
import TreeScript.Ast.Operator
import TreeScript.Number.Binary

/-!
# The tree of a program

A program is a `Node`; evaluating it walks the tree.  The tree is immutable, but each call site
carries the number of a memory cell in which evaluation keeps the function it resolved to, so that
one tree may be evaluated by several sessions.  `Node.numbered` hands these numbers out: the call
sites of a tree numbered from `first` get `first`, `first + 1`, … in the order in which they stand.
-/

namespace TreeScript

/-- A constant of a program. -/
inductive Literal where
  | null
  | bool (b : Bool)
  | byte (n : Int8)
  | short (n : Int16)
  /-- One code unit of UTF-16. -/
  | char (unit : UInt16)
  | int (n : Int32)
  | long (n : Int64)
  | float (x : Binary32)
  | double (x : Binary64)
  | str (text : String)
  deriving DecidableEq, Repr, Inhabited

/-- A declared parameter. -/
structure Param where
  name : String
  type : TypeKind
  deriving DecidableEq, Repr, Inhabited

/-! ## Declarations

They are shared between the tree and what is built from it, hence the parameter `N` for the tree
they hold. -/

/-- A declared function, method or coroutine. -/
structure FunctionDecl (N : Type) where
  name : String
  params : List Param
  returns : TypeKind
  body : N
  isCoroutine : Bool

/-- A declared field; without a default it starts as its type's default value. -/
structure FieldDecl (N : Type) where
  name : String
  type : TypeKind
  default? : Option N

/-- A declared constructor. -/
structure ConstructorDecl (N : Type) where
  params : List Param
  body : N

/-- A declared class. -/
structure ClassDecl (N : Type) where
  name : String
  superclasses : List String
  fields : List (FieldDecl N)
  methods : List (FunctionDecl N)
  constructors : List (ConstructorDecl N)

/-- Which way a counted loop counts. -/
inductive RangeDirection where
  | up | down
  deriving DecidableEq, Repr, Inhabited

/-! ## Nodes -/

/-- A node of a program. -/
inductive Node where
  | literal (value : Literal)
  | template (text : String)
  | var (name : String)
  | this
  | listLiteral (elements : List Node)
  | mapLiteral (entries : List (Node × Node))
  | lambda (params : List Param) (body : Node)
  | declare (type : TypeKind) (name : String) (value : Option Node)
  | assign (name : String) (value : Node)
  | delete (name : String)
  | constObject (cls name : String) (value : Node)
  | binary (op : BinaryOp) (left right : Node)
  | unary (op : UnaryOp) (operand : Node)
  | ternary (cond yes no : Node)
  | index (target : Node) (keys : List Node)
  | indexAssign (target : Node) (keys : List Node) (value : Node)
  | field (target : Node) (name : String)
  | fieldAssign (target : Node) (name : String) (value : Node)
  /-- `site` is the number of the call site's memory cell. -/
  | call (site : Nat) (name : String) (args : List Node)
  | methodCall (target : Node) (method : String) (args : List Node)
  | block (statements : List Node)
  | branch (arms : List (Node × Node)) (otherwise : Option Node)
  | whileLoop (cond body : Node)
  | forRange (name : String) (type : TypeKind) (start stop : Node) (direction : RangeDirection)
      (body : Node)
  | forEach (name : String) (iterable body : Node)
  | breakWith (value : Option Node)
  | continueLoop
  | returnWith (value : Option Node)
  | yieldWith (value : Option Node)
  | throwValue (value : Node)
  | tryCatch (body : Node) (name : String) (handler : Node)
  | functionDef (decl : FunctionDecl Node)
  | classDef (decl : ClassDecl Node)

namespace Node

instance : Inhabited Node := ⟨.literal .null⟩

/-- What a node is called in messages. -/
def kindName : Node → String
  | literal _ => "literal"
  | template _ => "interpolated"
  | var _ => "variable"
  | this => "this"
  | listLiteral _ => "list literal"
  | mapLiteral _ => "map literal"
  | lambda .. => "lambda"
  | declare .. => "declaration"
  | assign .. => "assignment"
  | delete _ => "delete"
  | constObject .. => "const object"
  | binary .. => "binary"
  | unary .. => "unary"
  | ternary .. => "ternary"
  | index .. => "index"
  | indexAssign .. => "index assignment"
  | field .. => "field"
  | fieldAssign .. => "field assignment"
  | call .. => "call"
  | methodCall .. => "method call"
  | block _ => "block"
  | branch .. => "if"
  | whileLoop .. => "while"
  | forRange .. => "for"
  | forEach .. => "foreach"
  | breakWith _ => "break"
  | continueLoop => "continue"
  | returnWith _ => "return"
  | yieldWith _ => "yield"
  | throwValue _ => "throw"
  | tryCatch .. => "try"
  | functionDef _ => "function definition"
  | classDef _ => "class definition"

end Node
end TreeScript
