import TreeScript.Operation.Arithmetic
import TreeScript.Heap.Equality

/-!
# Operators on evaluated operands

What an operator does when no class overloads it and no code of the program runs.  Equality is by
text when a string is involved, structural for lists and maps, numeric along the ladder of promotion,
and by storage otherwise.  A sum with a string, list or map joins texts; a difference of strings takes
one out of the other.
-/

namespace TreeScript

/-! ## Strings -/

/-- A text without the occurrences of a pattern, found from left to right. -/
def removeAll (pattern : List Char) : List Char → List Char
  | [] => []
  | c :: cs =>
    if pattern.isPrefixOf (c :: cs) then removeAll pattern (cs.drop (pattern.length - 1))
    else c :: removeAll pattern cs
termination_by cs => cs.length
decreasing_by all_goals simp; try omega

/-- A text without the occurrences of another; the empty text occurs nowhere. -/
def subtractText (s t : String) : String :=
  if t.isEmpty then s else String.ofList (removeAll t.toList s.toList)

/-- Whether a sum with this operand joins texts. -/
def isTextual : Value → Bool
  | .str _ | .list _ | .map _ => true
  | _ => false

/-- Whether an operator joins the texts of its operands. -/
def joinsText (op : BinaryOp) (l r : Value) : Bool := op == .add && (isTextual l || isTextual r)

/-- Whether an operand has no bits to work on. -/
def isFractional : Value → Bool
  | .double _ | .float _ | .str _ => true
  | _ => false

namespace Heap

/-- Hand on the failure of a computation that always ends. -/
def checked {α : Type} : Except EvalError α → Checked α
  | .ok a => .ok a
  | .error e => .error (.error e)

/-! ## Equality -/

/-- Whether two values are equal when no class says so. -/
def valuesEqual (h : Heap) (l r : Value) : Checked Bool :=
  match l, r with
  | .null, .null => .ok true
  | .null, _ | _, .null => .ok false
  | .str a, .str b => .ok (a == b)
  | .str _, _ | _, .str _ => do return (← h.render l) == (← h.render r)
  | .list _, _ | .map _, _ | _, .list _ | _, .map _ => h.structurallyEqual l r
  | _, _ =>
    match promote? l r with
    | some rank => do
      let v ← checked (do (← h.operands rank l r).binary .eq)
      return v == .bool true
    | none => .ok (l.sameStorage r)

/-! ## Binary operators -/

/-- The failure to apply an operator to operands of their types. -/
def binaryFailure (h : Heap) (op : BinaryOp) (l r : Value) : ErrorCause :=
  .invalidBinaryOp (h.typeName l) (h.typeName r) op

/-- Apply an arithmetic operator along the ladder of promotion. -/
def arithmetic (h : Heap) (op : BinaryOp) (l r : Value) : Checked Value :=
  match promote? l r with
  | some rank => checked do (← h.operands rank l r).binary op
  | none => .fail (h.binaryFailure op l r)

/-- Apply an operator that does not join texts. -/
def binary (h : Heap) (op : BinaryOp) (l r : Value) : Checked Value :=
  match op with
  | .eq => do return .bool (← h.valuesEqual l r)
  | .notEq => do return .bool !(← h.valuesEqual l r)
  | .strictEq => do
    let equal ← h.valuesEqual l r
    return .bool (equal && l.kindName == r.kindName)
  | .and | .or =>
    match h.truthy? l, h.truthy? r with
    | some a, some b => .ok (.bool (if op = .and then a && b else a || b))
    | _, _ => .fail (h.binaryFailure op l r)
  | .sub =>
    match l, r with
    | .str a, .str b => .ok (.str (subtractText a b))
    | .str _, _ | _, .str _ => .fail (h.binaryFailure op l r)
    | _, _ => h.arithmetic op l r
  | op =>
    if op.isBitwise && (isFractional l || isFractional r) then .fail (h.binaryFailure op l r)
    else h.arithmetic op l r

/-- Apply an operator; objects join in with the label of their class. -/
def evaluateBinary (h : Heap) (op : BinaryOp) (l r : Value) : Checked Value :=
  if joinsText op l r then do return .str ((← h.render l) ++ (← h.render r))
  else h.binary op l r

/-! ## Unary operators -/

/-- Apply a unary operator. -/
def evaluateUnary (h : Heap) (op : UnaryOp) (v : Value) : Except EvalError Value :=
  let failure : Except EvalError Value := .error (.of (.invalidUnaryOp (h.typeName v) op))
  match op with
  | .not =>
    match h.truthy? v with
    | some b => .ok (.bool !b)
    | none => failure
  | .neg =>
    match v with
    | .byte n => .ok (.byte (-n))
    | .short n => .ok (.short (-n))
    | .char c => .ok (.int (Int32.ofInt (-(c.toNat : Int))))
    | .int n => .ok (.int (-n))
    | .long n => .ok (.long (-n))
    | .float x => .ok (.float (-x))
    | .double x => .ok (.double (-x))
    | _ => failure
  | .bitNot =>
    match v with
    | .bool b => .ok (.int (if b then -2 else -1))
    | .byte n => .ok (.byte (~~~n))
    | .short n => .ok (.short (~~~n))
    | .char c => .ok (.char (~~~c))
    | .int n => .ok (.int (~~~n))
    | .long n => .ok (.long (~~~n))
    | _ => failure

end Heap
end TreeScript
