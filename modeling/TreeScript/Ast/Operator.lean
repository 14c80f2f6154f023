/-!
# Operators

The symbol of an operator doubles as the name of the method with which a class overloads it.
-/

namespace TreeScript

/-- Operators between two operands. -/
inductive BinaryOp where
  | add | sub | mul | div | mod | pow
  | eq | notEq | strictEq | lt | gt | ltEq | gtEq
  | and | or
  | bitAnd | bitOr | bitXor | shl | shr
  deriving DecidableEq, Repr, Inhabited

/-- Operators on one operand. -/
inductive UnaryOp where
  | not | bitNot | neg
  deriving DecidableEq, Repr, Inhabited

namespace BinaryOp

/-! ## Symbols -/

/-- The written form of an operator. -/
def symbol : BinaryOp → String
  | add => "+"
  | sub => "-"
  | mul => "*"
  | div => "/"
  | mod => "%"
  | pow => "^"
  | eq => "=="
  | notEq => "!="
  | strictEq => "==="
  | lt => "<"
  | gt => ">"
  | ltEq => "<="
  | gtEq => ">="
  | and => "&&"
  | or => "||"
  | bitAnd => "&"
  | bitOr => "|"
  | bitXor => "^^"
  | shl => "<<"
  | shr => ">>"

/-- Every binary operator. -/
def all : List BinaryOp :=
  [add, sub, mul, div, mod, pow, eq, notEq, strictEq, lt, gt, ltEq, gtEq, and, or,
    bitAnd, bitOr, bitXor, shl, shr]

/-- The operator with a given written form. -/
def ofSymbol? (text : String) : Option BinaryOp := all.find? (·.symbol == text)

/-- Reading an operator's symbol gives the operator back. -/
theorem ofSymbol?_symbol (op : BinaryOp) : ofSymbol? op.symbol = some op := by
  cases op <;> decide

/-! ## Families -/

/-- The second operand of these is evaluated only if the first leaves the result open. -/
def isShortCircuit : BinaryOp → Bool
  | and | or => true
  | _ => false

/-- These work on the bits of integers. -/
def isBitwise : BinaryOp → Bool
  | bitAnd | bitOr | bitXor | shl | shr => true
  | _ => false

/-- These compare their operands. -/
def isComparison : BinaryOp → Bool
  | eq | notEq | strictEq | lt | gt | ltEq | gtEq => true
  | _ => false

end BinaryOp

namespace UnaryOp

/-- The written form of an operator. -/
def symbol : UnaryOp → String
  | not => "!"
  | bitNot => "~"
  | neg => "-"

/-- Every unary operator. -/
def all : List UnaryOp := [not, bitNot, neg]

/-- The operator with a given written form. -/
def ofSymbol? (text : String) : Option UnaryOp := all.find? (·.symbol == text)

/-- Reading an operator's symbol gives the operator back. -/
theorem ofSymbol?_symbol (op : UnaryOp) : ofSymbol? op.symbol = some op := by
  cases op <;> decide

end UnaryOp
end TreeScript
