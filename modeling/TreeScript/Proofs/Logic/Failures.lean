import TreeScript.Session.Host

/-
# Failures that have just been raised

A failure is `Fresh` while it has left no call: it has no backtrace yet.  That a call was refused is no
fresh failure, since such a failure is given the live calls at once.  Every computation on the heap that
runs no code of the program fails with fresh failures only; so does all else in which failures begin.
-/

namespace TreeScript

/-- Whether a cause is that a call was refused. -/
def ErrorCause.isRefusal : ErrorCause → Bool
  | .stackOverflow _ => true
  | _ => false

/-- A failure that has left no call, and is not that a call was refused. -/
structure EvalError.Fresh (e : EvalError) : Prop where
  backtrace : e.backtrace = []
  cause : ∀ depth, e.cause ≠ .stackOverflow depth

theorem EvalError.Fresh.of {cause : ErrorCause} (h : cause.isRefusal = false) :
    (EvalError.of cause).Fresh where
  backtrace := rfl
  cause := by
    rintro depth rfl
    cases h

theorem EvalError.Fresh.withNote {e : EvalError} (he : e.Fresh) (note : String) :
    (e.withNote note).Fresh :=
  ⟨he.backtrace, he.cause⟩

/-- A computation that stops without a result has failed freshly, if it has failed. -/
def Fault.Fresh : Fault → Prop
  | .error e => e.Fresh
  | .halt _ => True

/-- If there is no result, what there is instead is of a kind. -/
def FailsWith {ε α : Type} (P : ε → Prop) (r : Except ε α) : Prop := ∀ e, r = .error e → P e

section
variable {ε α β : Type} {P : ε → Prop}

namespace FailsWith

theorem ok (a : α) : FailsWith P (.ok a) := fun _ h => by cases h

theorem error {e : ε} (he : P e) : FailsWith P (.error e : Except ε α) := fun _ h => by
  cases h
  exact he

theorem bind {r : Except ε α} {f : α → Except ε β} (hr : FailsWith P r)
    (hf : ∀ a, FailsWith P (f a)) : FailsWith P (r >>= f) := by
  cases r with
  | ok a => exact hf a
  | error e => exact error (hr e rfl)

theorem map {r : Except ε α} (hr : FailsWith P r) (f : α → β) : FailsWith P (r.map f) := by
  cases r with
  | ok a => exact ok (f a)
  | error e => exact error (hr e rfl)

end FailsWith

/-- A computation that always ends and fails freshly. -/
theorem FailsWith.checked {r : Except EvalError α} (h : FailsWith EvalError.Fresh r) :
    FailsWith Fault.Fresh (Heap.checked r) := by
  cases r with
  | ok a => exact .ok a
  | error e => exact .error (h e rfl)

/-- A walk through a structure that has no end halts. -/
theorem FailsWith.ofEnding (o : Option α) : FailsWith Fault.Fresh (Checked.ofEnding o) := by
  cases o with
  | none => exact .error trivial
  | some a => exact .ok a

theorem FailsWith.fail {cause : ErrorCause} (h : cause.isRefusal = false) :
    FailsWith Fault.Fresh (Checked.fail cause : Checked α) :=
  .error (EvalError.Fresh.of h)

end

namespace Heap

/-! ## Conversions -/

theorem fresh_castFailure (source target : String) : (castFailure source target).Fresh := .of rfl

theorem fresh_readFailure (s target : String) : (readFailure s target).Fresh :=
  (fresh_castFailure _ _).withNote _

theorem failsWith_integerOf (ty : TypeKind) (v : Value) :
    FailsWith EvalError.Fresh (integerOf ty v) := by
  unfold integerOf
  dsimp only
  repeat' split
  all_goals first
    | exact .ok _
    | exact .error (fresh_readFailure _ _)
    | exact .error (fresh_castFailure _ _)
    | exact .error ((fresh_castFailure _ _).withNote _)

theorem failsWith_singleOf (v : Value) : FailsWith EvalError.Fresh (singleOf v) := by
  unfold singleOf
  repeat' split
  all_goals first
    | exact .ok _
    | exact .error (fresh_readFailure _ _)
    | exact .error (fresh_castFailure _ _)

theorem failsWith_doubleOf (v : Value) : FailsWith EvalError.Fresh (doubleOf v) := by
  unfold doubleOf
  repeat' split
  all_goals first
    | exact .ok _
    | exact .error (fresh_readFailure _ _)
    | exact .error (fresh_castFailure _ _)

theorem failsWith_toNumber (v : Value) (ty : TypeKind) :
    FailsWith EvalError.Fresh (toNumber v ty) := by
  unfold toNumber
  split
  · exact (failsWith_singleOf v).map _
  · exact (failsWith_doubleOf v).map _
  · exact (failsWith_integerOf ty v).map _

theorem failsWith_render (h : Heap) (v : Value) : FailsWith Fault.Fresh (h.render v) := .ofEnding _

theorem failsWith_cast (h : Heap) (v : Value) (ty : TypeKind) :
    FailsWith Fault.Fresh (h.cast v ty) := by
  have hkeep : ∀ ok : Bool, FailsWith Fault.Fresh
      (if ok then Except.ok (v, h) else .error (.error (castFailure v.kindName ty.text))) := by
    intro ok
    cases ok with
    | false => exact .error (fresh_castFailure _ _)
    | true => exact .ok _
  unfold cast
  dsimp only
  split
  · exact .ok _
  · cases ty with
    | byte | short | char | int | long | float | double =>
      have hnumber := failsWith_toNumber v
      dsimp only
      split
      · exact .ok _
      · rename_i e he
        exact .error (hnumber _ e he)
    | string =>
      dsimp only
      split
      · exact .ok _
      · exact (failsWith_render h v).bind fun _ => .ok _
    | list | array =>
      dsimp only
      split
      · exact .ok _
      · exact .ok _
      · exact hkeep false
    | ref =>
      dsimp only
      split <;> exact .ok _
    | any | void | bool => exact .ok _
    | map | coroutine | consumer | object _ => exact hkeep _

/-! ## Operators -/

theorem failsWith_operands (h : Heap) (rank : Rank) (l r : Value) :
    FailsWith EvalError.Fresh (h.operands rank l r) := by
  cases rank with
  | double => exact (failsWith_doubleOf l).bind fun _ => (failsWith_doubleOf r).bind fun _ => .ok _
  | float => exact (failsWith_singleOf l).bind fun _ => (failsWith_singleOf r).bind fun _ => .ok _
  | bool => exact .ok _
  | _ => exact (failsWith_integerOf _ l).bind fun _ => (failsWith_integerOf _ r).bind fun _ => .ok _

theorem failsWith_integerBinary (ty : TypeKind) (op : BinaryOp) (a b : Int) :
    FailsWith EvalError.Fresh (Integer.binary ty op a b) := by
  cases op with
  | div | mod =>
    unfold Integer.binary
    dsimp only
    split
    · exact .error (.of rfl)
    · exact .ok _
  | _ => exact .ok _

theorem failsWith_floatBinary {α : Type} (f : FloatArithmetic α) (op : BinaryOp) (x y : α) :
    FailsWith EvalError.Fresh (f.binary op x y) := by
  cases op with
  | bitAnd | bitOr | bitXor | shl | shr => exact .error (.of rfl)
  | _ => exact .ok _

theorem failsWith_operandsBinary (op : BinaryOp) (o : Operands) :
    FailsWith EvalError.Fresh (o.binary op) := by
  cases o with
  | doubles x y => exact failsWith_floatBinary _ op x y
  | floats x y => exact failsWith_floatBinary _ op x y
  | integers ty a b => exact failsWith_integerBinary ty op a b

theorem failsWith_promoted (h : Heap) (rank : Rank) (op : BinaryOp) (l r : Value) :
    FailsWith Fault.Fresh (checked do (← h.operands rank l r).binary op) :=
  ((failsWith_operands h rank l r).bind fun o => failsWith_operandsBinary op o).checked

theorem failsWith_binaryFailure {α : Type} (h : Heap) (op : BinaryOp) (l r : Value) :
    FailsWith Fault.Fresh (Checked.fail (h.binaryFailure op l r) : Checked α) :=
  .fail rfl

theorem failsWith_arithmetic (h : Heap) (op : BinaryOp) (l r : Value) :
    FailsWith Fault.Fresh (h.arithmetic op l r) := by
  unfold arithmetic
  split
  · exact failsWith_promoted h _ op l r
  · exact failsWith_binaryFailure h op l r

theorem failsWith_valuesEqual (h : Heap) (l r : Value) :
    FailsWith Fault.Fresh (h.valuesEqual l r) := by
  unfold valuesEqual
  split
  · exact .ok _
  · exact .ok _
  · exact .ok _
  · exact .ok _
  · exact (failsWith_render h _).bind fun _ => (failsWith_render h _).bind fun _ => .ok _
  · exact (failsWith_render h _).bind fun _ => (failsWith_render h _).bind fun _ => .ok _
  · exact .ofEnding _
  · exact .ofEnding _
  · exact .ofEnding _
  · exact .ofEnding _
  · split
    · exact (failsWith_promoted h _ .eq l r).bind fun _ => .ok _
    · exact .ok _

theorem failsWith_binary (h : Heap) (op : BinaryOp) (l r : Value) :
    FailsWith Fault.Fresh (h.binary op l r) := by
  have hother : FailsWith Fault.Fresh
      (if op.isBitwise && (isFractional l || isFractional r) then
          Checked.fail (h.binaryFailure op l r)
        else h.arithmetic op l r) := by
    split
    · exact failsWith_binaryFailure h op l r
    · exact failsWith_arithmetic h op l r
  unfold binary
  cases op with
  | eq | notEq | strictEq => exact (failsWith_valuesEqual h l r).bind fun _ => .ok _
  | and | or =>
    dsimp only
    split
    · exact .ok _
    · exact failsWith_binaryFailure h _ l r
  | sub =>
    dsimp only
    split
    · exact .ok _
    · exact failsWith_binaryFailure h .sub _ _
    · exact failsWith_binaryFailure h .sub _ _
    · exact failsWith_arithmetic h .sub l r
  | _ => exact hother

theorem failsWith_evaluateUnary (h : Heap) (op : UnaryOp) (v : Value) :
    FailsWith EvalError.Fresh (h.evaluateUnary op v) := by
  unfold evaluateUnary
  dsimp only
  repeat' split
  all_goals first
    | exact .ok _
    | exact .error (.of rfl)

end Heap

/-! ## Elements, coroutines and exceptions -/

theorem failsWith_placeOf (h : Heap) (key : Value) (length : Nat) :
    FailsWith EvalError.Fresh (placeOf h key length) := by
  have hthrow : ∀ {α : Type} (cause : ErrorCause), cause.isRefusal = false →
      FailsWith EvalError.Fresh (throw (.of cause) : Except EvalError α) := fun _ hcause =>
    .error (EvalError.Fresh.of hcause)
  have hinside : ∀ raw place : Int, FailsWith EvalError.Fresh (do
      if place < 0 ∨ length ≤ place then throw (.of (.indexOutOfBounds raw length))
      return place.toNat) := by
    intro raw place
    dsimp only
    split
    · exact (hthrow (.indexOutOfBounds raw length) rfl).bind fun _ => .ok _
    · exact .ok _
  have hnumber : FailsWith EvalError.Fresh (do
      let raw ← Heap.integerOf .long key
      let place := if raw < 0 then raw + length else raw
      if place < 0 ∨ length ≤ place then throw (.of (.indexOutOfBounds raw length))
      return place.toNat) :=
    (Heap.failsWith_integerOf .long key).bind fun raw => hinside raw _
  unfold placeOf
  dsimp only
  split
  · exact (hthrow (.typeMismatch "int" (h.typeName key)) rfl).bind fun _ => hnumber
  · exact hnumber

theorem Exec.failsWith_element (h : Heap) (container key : Value) (lenient single : Bool) :
    FailsWith Fault.Fresh (element h container key lenient single) := by
  have hplace : ∀ {α : Type} (f : Nat → α) (length : Nat),
      FailsWith Fault.Fresh (Heap.checked do return f (← placeOf h key length)) := fun f length =>
    ((failsWith_placeOf h key length).bind fun _ => .ok _).checked
  unfold element
  dsimp only
  split
  · exact hplace _ _
  · exact hplace _ _
  · split
    · exact .ok _
    · split
      · exact .ok _
      · exact (Heap.failsWith_render h key).bind fun _ => .fail rfl
  · split
    · exact hplace _ _
    · exact .fail rfl
  · exact .fail rfl

theorem failsWith_begin? (c : Coroutine) : FailsWith EvalError.Fresh c.begin? := by
  unfold Coroutine.begin?
  split
  · exact .error (.of rfl)
  · exact .ok _
  · exact .ok _
  · exact .ok _

theorem Exec.failsWith_exceptionText (h : Heap) (v : Value) :
    FailsWith Fault.Fresh (exceptionText h v) := by
  unfold exceptionText
  split
  · split
    · exact Heap.failsWith_render h _
    · exact .ok _
  · exact Heap.failsWith_render h v

end TreeScript
