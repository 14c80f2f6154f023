import TreeScript.Eval.Exec
import TreeScript.Operation.Basic

/-!
# Methods, and the conversions that ask classes

A class may say how its instances convert, by a method `cast` that is given the name of a type.  It is
asked for truth (`"bool"`), text (`"string"`) and numbers.  Conversion is needed to call a method,
since arguments are converted to the types of the parameters; but the one argument of `cast` is a
string, whose conversion asks no class.  So methods are called here by way of `callMethodWith`, which
takes the conversion of arguments as a parameter: `askCast` is the first use of it, and the conversions
built on `askCast` are what everything else uses.
-/

namespace TreeScript
namespace Exec

/-! ## Parameters -/

/-- Convert arguments to the types of the parameters, in order, and bind them in a scope. -/
def bindParamsWith (convert : Value → TypeKind → Exec Value) (scope : Nat) :
    List Param → List Value → Exec Unit
  | p :: ps, v :: vs => do
    let v ← convert v p.type
    modifyHeap fun h => h.declare scope p.name p.type v
    bindParamsWith convert scope ps vs
  | _, _ => pure ()

/-- Convert arguments to the types of the parameters, in order; arguments beyond the parameters stay
as they are. -/
def convertArgsWith (convert : Value → TypeKind → Exec Value) :
    List Param → List Value → Exec (List Value)
  | p :: ps, v :: vs => do
    let v ← convert v p.type
    return v :: (← convertArgsWith convert ps vs)
  | [], vs => pure vs
  | _, [] => pure []

/-! ## Native actions -/

/-- Make a list of elements. -/
def newList (items : List Value) : Exec Value := make fun h => h.newList items

/-- What a native routine does in a scope with its arguments. -/
def runNative (action : NativeAction) (scope : Nat) (args : List Value) : Exec Value :=
  match action with
  | .constant v => pure v
  | .echo => newList args
  | .fail message => fail (.native message)
  | .failCustom message => raise (.error ((EvalError.of (.custom message)).withNote "from host"))
  | .evaluate node => eval node scope
  | .raiseBreak => do raise (.breakLoop (← newList args))
  | .raiseReturn => do raise (.returnValue (← newList args))
  | .raiseContinue => raise .continueLoop
  | .exceptionMessage => heap fun h => h.read scope "message"

/-! ## Methods -/

/-- A scope for a method of an object: inside the scope of its fields, with `this` bound. -/
def methodScope (i : Nat) : Exec Nat := make fun h =>
  let o := h.object i
  let (scope, h) := h.newScope o.fields
  (scope, h.declare scope "this" (.object o.cls.name) (.object i))

/-- Make a coroutine over a body. -/
def newCoroutine (name : String) (params : List Param) (body : Node) (args : List Value)
    (origin : Nat) : Exec Value :=
  make fun h =>
    let (i, h) := h.newCoroutine name params body args origin
    (.coroutine i, h)

/-- Call a method of an object, converting arguments in a given way. -/
def callMethodWith (convert : Value → TypeKind → Exec Value) (i : Nat) (m : Routine)
    (args : List Value) : Exec Value := do
  meter Meter.countMethodCall
  let scope ← methodScope i
  match m.body with
  | .native action =>
    asBarrier m.name <| asNative do
      runNative action scope (← convertArgsWith convert m.params args)
  | .script body =>
    asBarrier m.name do
      entering m.params args
      bindParamsWith convert scope m.params args
      eval body scope
  | .coroutine body => do
    newCoroutine m.name m.params body (← convertArgsWith convert m.params args) scope

/-! ## Asking the class -/

/-- Keep a value that is an instance of a class. -/
def checkInstance (v : Value) (cls : String) : Exec Value := do
  if ← heap fun h => h.isInstance cls v then return v
  else fail (.typeMismatch cls (← heap fun h => h.typeName v))

/-- Convert a string to the type of a slot; no code of the program runs. -/
def convertWord (v : Value) (ty : TypeKind) : Exec Value :=
  if ty.isUntyped then pure v
  else
    match ty with
    | .object cls => checkInstance v cls
    | ty => makeChecked fun h => h.cast v ty

/-- What the method `cast` of an object gives for a type, if its class has that method. -/
def askCast (i : Nat) (target : String) : Exec (Option Value) := do
  match ← heap fun h => (h.classOf i).method? "cast" 1 with
  | some m => return some (← callMethodWith convertWord i m [.str target])
  | none => return none

/-- Whether a value counts as true.  An object must have a method `cast`. -/
def toBool (v : Value) : Exec Bool := do
  match ← heap fun h => h.truthy? v with
  | some b => return b
  | none =>
    match v with
    | .object i =>
      match ← askCast i "bool" with
      | some w => heap fun h => h.truthy w
      | none => fail (.undefinedMethod "cast" (← heap fun h => (h.classOf i).name))
    | _ => return true

/-- The text of an object: what its method `cast` gives, or its label. -/
def objectText (i : Nat) : Exec String := do
  match ← askCast i "string" with
  | some w => ofChecked (← heap fun h => h.render w)
  | none => heap fun h => h.objectLabel i

/-- The text of a value down to a depth; the classes of objects are asked for theirs. -/
def stringifyTo : Nat → Value → Bool → Exec String
  | 0, _, _ => halt .outOfFuel
  | depth + 1, v, nested => do
    match ← heap fun h => h.shape v nested with
    | .text s => return s
    | .object i => objectText i
    | .same w => stringifyTo depth w nested
    | .row separator inner items =>
      holding v do
        return Heap.rowText separator (← items.mapM (stringifyTo depth · inner))
    | .entries es =>
      holding v do
        return Heap.entriesText (← es.mapM fun (k, w) => do
          let key ← stringifyTo depth k false
          let value ← stringifyTo depth w true
          return Heap.entryText key value)

/-- The text of a value. -/
def stringify (v : Value) : Exec String := do stringifyTo (← fuel) v false

/-! ## Conversion -/

/-- Convert an object to a number type by asking its class. -/
def objectToNumber (i : Nat) (ty : TypeKind) : Exec Value := do
  let failure : Exec Value := do
    fail (.invalidCast (← heap fun h => (h.classOf i).name) ty.text)
  match ← askCast i ty.text with
  | some (.object _) => failure
  | some w => makeChecked fun h => h.cast w ty
  | none => failure

/-- Convert a value to a type. -/
def castValue (v : Value) (ty : TypeKind) : Exec Value :=
  if v.isNull then pure v
  else
    match ty with
    | .bool => return .bool (← toBool v)
    | .string =>
      match v with
      | .str _ => pure v
      | _ => return .str (← stringify v)
    | .object cls => checkInstance v cls
    | ty =>
      match v with
      | .object i => if ty.isNumeric then objectToNumber i ty else makeChecked fun h => h.cast v ty
      | _ => makeChecked fun h => h.cast v ty

/-- Convert a value to the type of a slot; untyped slots take every value as it is. -/
def coerce (v : Value) (ty : TypeKind) : Exec Value :=
  if ty.isUntyped then pure v else castValue v ty

/-- Convert arguments to the types of the parameters and bind them in a scope. -/
def bindParams (scope : Nat) (params : List Param) (args : List Value) : Exec Unit :=
  bindParamsWith coerce scope params args

/-- Convert arguments to the types of the parameters. -/
def convertArgs (params : List Param) (args : List Value) : Exec (List Value) :=
  convertArgsWith coerce params args

/-- Call a method of an object. -/
def callMethod (i : Nat) (m : Routine) (args : List Value) : Exec Value :=
  callMethodWith coerce i m args

/-- The method of an object for a number of arguments. -/
def findMethod (i : Nat) (name : String) (argc : Nat) : Exec Routine := do
  let cls ← heap fun h => h.classOf i
  match cls.method? name argc with
  | some m => return m
  | none => fail (.undefinedMethod name cls.name)

/-- Call a method of an object by name. -/
def callNamedMethod (i : Nat) (name : String) (args : List Value) : Exec Value := do
  callMethod i (← findMethod i name args.length) args

end Exec
end TreeScript
