import TreeScript.Eval.Access
import TreeScript.Eval.Control
import TreeScript.Eval.Operators
import TreeScript.Eval.Template

/-!
# The evaluator

`Exec.evalNode` says what each node does in terms of an evaluator for the nodes inside it.
`evaluateNode` ties it to itself: with a bound of `n + 1` a node is evaluated with an evaluator of
bound `n` inside, and with a bound of zero evaluation stops.  The bound limits how deep evaluation
goes and how many rounds a loop has, and nothing else.
-/

namespace TreeScript
namespace Exec

/-- Evaluate nodes from left to right. -/
def evalAll (scope : Nat) : List Node → Exec (List Value)
  | [] => pure []
  | e :: es => do
    let v ← eval e scope
    return v :: (← evalAll scope es)

/-- Evaluate the entries of a map literal in order, a key before its value. -/
def evalEntries (scope : Nat) : OrderedMap → List (Node × Node) → Exec OrderedMap
  | m, [] => pure m
  | m, (k, e) :: es => do
    let k ← eval k scope
    let v ← eval e scope
    evalEntries scope (m.insert k v) es

/-- What a node does in a scope. -/
def dispatch (node : Node) (scope : Nat) : Exec Value :=
  match node with
  | .literal l => pure (.ofLiteral l)
  | .template t => evalTemplate t scope
  | .var x => heap fun h => h.read scope x
  | .this => heap fun h => h.read scope "this"
  | .listLiteral es => do newList (← evalAll scope es)
  | .mapLiteral es => do
    let m ← evalEntries scope .empty es
    make fun h => h.newMap m
  | .lambda params body => capture (.lambda params body scope)
  | .declare ty x e => evalDeclare ty x e scope
  | .assign x e => evalAssign x e scope
  | .delete x => do
    modifyHeap fun h => (h.unbind scope x).2
    return .null
  | .constObject cls x e => evalConstObject cls x e scope
  | .binary op l r => evalBinary op l r scope
  | .unary op e => do applyUnary op (← eval e scope)
  | .ternary c yes no => do
    if ← toBool (← eval c scope) then eval yes scope else eval no scope
  | .index e keys => do
    let v ← eval e scope
    indexGet v (← evalAll scope keys)
  | .indexAssign e keys new => do
    let v ← eval e scope
    let ks ← evalAll scope keys
    indexSet v ks (← eval new scope)
  | .field e x => evalField e x scope
  | .fieldAssign e x new => evalFieldAssign e x new scope
  | .call site f args => evalCall site f args scope false
  | .methodCall e m args => evalMethodCall e m args scope
  | .block es => evalBlock es scope
  | .branch arms otherwise => evalBranch arms otherwise scope
  | .whileLoop c body => evalWhile c body scope
  | .forRange x ty a b direction body => evalRange x ty a b direction body scope
  | .forEach x e body => evalEach x e body scope
  | .breakWith e => do raise (.breakLoop (← evalOptional e scope))
  | .continueLoop => raise .continueLoop
  | .returnWith e => evalReturn e scope
  | .yieldWith e => evalYield e scope
  | .throwValue e => evalThrow e scope
  | .tryCatch body x handler => evalTry body x handler scope
  | .functionDef d => do
    modifySession fun s => s.addFunction (.routine (.ofDecl d))
    return .null
  | .classDef d => do
    let s ← ofExcept (← session fun s => s.defineClass d)
    modifySession fun _ => s
    return .null

/-- Evaluate a node in a scope with an evaluator for the nodes inside it. -/
def evalNode (node : Node) (scope : Nat) : Exec Value := do
  enterNode
  dispatch node scope

end Exec

/-- Evaluate a node in a scope, with a bound. -/
def evaluateNode : Nat → Node → Nat → State → Outcome Value × State
  | 0, _, _, s => (.halted .outOfFuel, s)
  | n + 1, node, scope, s => Exec.evalNode node scope (.untraced n (evaluateNode n)) s

/-- The evaluator with a bound. -/
def evaluator (fuel : Nat) : Evaluator := .untraced fuel (evaluateNode fuel)

/-- Run an evaluation with a bound. -/
def Exec.run {α : Type} (x : Exec α) (fuel : Nat) (s : State) : Outcome α × State :=
  x (evaluator fuel) s

end TreeScript
