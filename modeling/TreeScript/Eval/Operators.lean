import TreeScript.Eval.Hooks

/-!
# Operators with objects

A class overloads an operator by a method with the operator's symbol as its name; the object on the
left is asked.  A string outranks an object: together with a string, an object takes part as its text.
Where no class has a say, operators do what they do without running code of the program.
-/

namespace TreeScript
namespace Exec

/-- Apply an operator that no class overloads. -/
def plainBinary (op : BinaryOp) (l r : Value) : Exec Value := do
  if joinsText op l r then
    let left ← stringify l
    let right ← stringify r
    return .str (left ++ right)
  else ofChecked (← heap fun h => h.binary op l r)

/-- An object as its text, all else as it is. -/
def asText (v : Value) : Exec Value :=
  match v with
  | .object i => return .str (← objectText i)
  | v => pure v

/-- Apply an operator to an object and a string. -/
def textBinary (op : BinaryOp) (l r : Value) : Exec Value :=
  if op = .strictEq then pure (.bool false)
  else do
    let l ← asText l
    let r ← asText r
    plainBinary op l r

/-- Apply an operator to an object on the left: its class's overload, or for the equalities the
overload of `==`, or whether both sides are the same object. -/
def objectBinary (op : BinaryOp) (i : Nat) (r : Value) : Exec Value := do
  let cls ← heap fun h => h.classOf i
  match cls.method? op.symbol 1 with
  | some m => callMethod i m [r]
  | none =>
    if op = .eq ∨ op = .notEq ∨ op = .strictEq then
      let equal ←
        match cls.method? BinaryOp.eq.symbol 1 with
        | some m => toBool (← callMethod i m [r])
        | none => pure (r == .object i)
      return .bool (equal != (op == .notEq))
    else fail (.invalidBinaryOp cls.name (← heap fun h => h.typeName r) op)

/-- Apply an operator to evaluated operands. -/
def applyBinary (op : BinaryOp) (l r : Value) : Exec Value :=
  match l, r with
  | .object _, .str _ | .str _, .object _ => textBinary op l r
  | .object i, _ => objectBinary op i r
  | _, _ => plainBinary op l r

/-- Apply a unary operator to an evaluated operand. -/
def applyUnary (op : UnaryOp) (v : Value) : Exec Value :=
  match v with
  | .object i => do
    let cls ← heap fun h => h.classOf i
    match cls.method? op.symbol 0 with
    | some m => callMethod i m []
    | none =>
      if op = .not then return .bool !(← toBool v)
      else fail (.invalidUnaryOp cls.name op)
  | _ => do ofExcept (← heap fun h => h.evaluateUnary op v)

/-- Evaluate a binary operator.  A short-circuit operator evaluates its right operand only if the left
one leaves the result open, and asks no overload. -/
def evalBinary (op : BinaryOp) (left right : Node) (scope : Nat) : Exec Value :=
  if op.isShortCircuit then do
    let a ← toBool (← eval left scope)
    if a == (op == .or) then return .bool a
    else return .bool (← toBool (← eval right scope))
  else do
    let l ← eval left scope
    let r ← eval right scope
    applyBinary op l r

end Exec
end TreeScript
