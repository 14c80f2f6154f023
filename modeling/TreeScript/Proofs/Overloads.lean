import TreeScript.Proofs.Evaluations
import TreeScript.Proofs.Instances
import TreeScript.Proofs.Requests

/-
# Operators that classes overload

An operator asks the class of the object on its left, by the method that has the operator's symbol as
its name.  Whenever there is such a method, the operator is a call of it and nothing else
(`overloads_called`): the exceptions are a string on the right, with which the object takes part as its
text, and the two operators that evaluate their right operand only if they need it, which ask for truth
and no overload.

Strict equality is decided in three places: between an object and a string, for an object on the left,
and for all else.  The first says no; the last compares the kinds.  The second asks the overload of `==`,
whatever is on the right.  So what is strictly equal is of one kind, unless it is this overload that has an
object be equal to something that is none (`kind_eq_of_strictEq`).
-/

namespace TreeScript

open Exec

/-! ## Operators on evaluated operands -/

namespace Exec

variable {op : BinaryOp} {i : Nat} {l r : Value} {m : Routine} {ev : Evaluator} {s t : State}

theorem applyBinary_object (hr : ∀ x, r ≠ .str x) :
    applyBinary op (.object i) r = objectBinary op i r := by
  cases r with
  | str x => exact absurd rfl (hr x)
  | _ => rfl

/-- Strings apart, only an object on the left has a say. -/
theorem applyBinary_plain (hl : ∀ i, l ≠ .object i)
    (htext : ¬ ((∃ x, l = .str x) ∧ ∃ j, r = .object j)) :
    applyBinary op l r = plainBinary op l r := by
  unfold applyBinary
  split
  · exact absurd rfl (hl _)
  · exact absurd ⟨⟨_, rfl⟩, _, rfl⟩ htext
  · exact absurd rfl (hl _)
  · rfl

theorem objectBinary_apply_some (hm : (s.heap.classOf i).method? op.symbol 1 = some m) :
    objectBinary op i r ev s = callMethod i m [r] ev s := by
  unfold objectBinary
  rw [bind_apply]
  dsimp only [heap]
  rw [hm]

theorem applyUnary_apply_some {op : UnaryOp} (hm : (s.heap.classOf i).method? op.symbol 0 = some m) :
    applyUnary op (.object i) ev s = callMethod i m [] ev s := by
  unfold applyUnary
  dsimp only
  rw [bind_apply]
  dsimp only [heap]
  rw [hm]

end Exec

/-! ## Operators on nodes -/

section
variable {fuel c i : Nat} {left right operand : Node} {s s₁ s₂ s₃ : State} {l r : Value} {m : Routine}

/-- An operator is applied to what its operands give, one after the other. -/
theorem evaluateNode_binary {op : BinaryOp} (hop : op.isShortCircuit = false)
    (henter : enterNode (evaluator fuel) s = (.value (), s₁))
    (hleft : evaluateNode fuel left c s₁ = (.value l, s₂))
    (hright : evaluateNode fuel right c s₂ = (.value r, s₃)) :
    evaluateNode (fuel + 1) (.binary op left right) c s = (applyBinary op l r).run fuel s₃ := by
  have hplain : evalBinary op left right c =
      eval left c >>= fun l => eval right c >>= fun r => applyBinary op l r := by
    unfold evalBinary
    rw [hop]
    rfl
  show (enterNode >>= fun _ => evalBinary op left right c) (evaluator fuel) s = _
  rw [bind_apply, henter]
  dsimp only
  rw [hplain, bind_apply, show eval left c (evaluator fuel) s₁ = _ from hleft]
  dsimp only
  rw [bind_apply, show eval right c (evaluator fuel) s₂ = _ from hright]
  rfl

theorem evaluateNode_unary {op : UnaryOp}
    (henter : enterNode (evaluator fuel) s = (.value (), s₁))
    (hoperand : evaluateNode fuel operand c s₁ = (.value l, s₂)) :
    evaluateNode (fuel + 1) (.unary op operand) c s = (applyUnary op l).run fuel s₂ := by
  show (enterNode >>= fun _ => eval operand c >>= fun v => applyUnary op v) (evaluator fuel) s = _
  rw [bind_apply, henter]
  dsimp only
  rw [bind_apply, show eval operand c (evaluator fuel) s₁ = _ from hoperand]
  rfl

end

/-- **An overload is called whenever there is one.**  An operator between an object and what is no string
is the call of the method that has its symbol as its name, and is over when this call is; the operators
that ask for truth are excepted.  A unary operator on an object is such a call as well. -/
theorem overloads_called (fuel c : Nat) {s s₁ : State}
    (henter : enterNode (evaluator fuel) s = (.value (), s₁)) :
    (∀ (op : BinaryOp) (left right : Node) (i : Nat) (r : Value) (s₂ s₃ : State) (m : Routine),
      op ≠ .and → op ≠ .or →
      evaluateNode fuel left c s₁ = (.value (.object i), s₂) →
      evaluateNode fuel right c s₂ = (.value r, s₃) → (∀ x, r ≠ .str x) →
      (s₂.heap.classOf i).method? op.symbol 1 = some m →
      evaluateNode (fuel + 1) (.binary op left right) c s = (callMethod i m [r]).run fuel s₃) ∧
    ∀ (op : UnaryOp) (operand : Node) (i : Nat) (s₂ : State) (m : Routine),
      evaluateNode fuel operand c s₁ = (.value (.object i), s₂) →
      (s₂.heap.classOf i).method? op.symbol 0 = some m →
      evaluateNode (fuel + 1) (.unary op operand) c s = (callMethod i m []).run fuel s₂ := by
  constructor
  · intro op left right i r s₂ s₃ m hand hor hleft hright hr hm
    have hop : op.isShortCircuit = false := by
      cases op <;> first | rfl | contradiction
    -- the right operand does not change what class the left one is of
    have hm₃ : (s₃.heap.classOf i).method? op.symbol 1 = some m := by
      have hkept := evaluateNode_keeps fuel right c s₂
      rw [hright] at hkept
      exact hkept.method? hm
    rw [evaluateNode_binary hop henter hleft hright, applyBinary_object hr]
    exact objectBinary_apply_some hm₃
  · intro op operand i s₂ m hoperand hm
    rw [evaluateNode_unary henter hoperand]
    exact applyUnary_apply_some hm

namespace Host

/-- A method that gives the same whatever it is called with. -/
def answering (symbol : String) (params : List Param) (answer : Literal) : FunctionDecl Node where
  name := symbol
  params := params
  returns := .any
  body := .returnWith (some (.literal answer))
  isCoroutine := false

/-- A class whose instances take any operand, and are equal to everything. -/
def obliging : ClassDecl Node where
  name := "A"
  superclasses := []
  fields := []
  methods := [answering "+" [⟨"x", .any⟩] (.int 7), answering "-" [] (.int 8),
    answering "&&" [⟨"x", .any⟩] (.int 9), answering "==" [⟨"x", .any⟩] (.bool true)]
  constructors := []

/-- A session in which two variables hold instances of the class. -/
def obligingHost : Host :=
  (Host.empty.serve (fun _ => evaluator 20) [.start bare, .prepare 2, .evaluate 0 (.classDef obliging),
    .evaluate 0 (.declare .any "a" (some (.call 0 "A" []))),
    .evaluate 0 (.declare .any "b" (some (.call 1 "A" [])))]).2

/-- Where evaluations in the session begin. -/
def obligingState : State :=
  ⟨obligingHost.heap, obligingHost.sites, [], obligingHost.sessions.getD 0 (.blank 0 0 bare)⟩

end Host

/-- Instances are added to a number, and negated. -/
theorem overloads_called_sum :
    let s := Host.obligingState
    let c := s.session.root
    let s₁ := (enterNode (evaluator 19) s).2
    let s₂ := (evaluateNode 19 (.var "a") c s₁).2
    let s₃ := (evaluateNode 19 (.literal (.int 1)) c s₂).2
    enterNode (evaluator 19) s = (.value (), s₁) ∧
      evaluateNode 19 (.var "a") c s₁ = (.value (.object 0), s₂) ∧
      evaluateNode 19 (.literal (.int 1)) c s₂ = (.value (.int 1), s₃) ∧
      ∃ sum negation, (s₂.heap.classOf 0).method? "+" 1 = some sum ∧
        (s₂.heap.classOf 0).method? "-" 0 = some negation ∧
        evaluateNode 20 (.binary .add (.var "a") (.literal (.int 1))) c s =
          (callMethod 0 sum [.int 1]).run 19 s₃ ∧
        evaluateNode 20 (.unary .neg (.var "a")) c s = (callMethod 0 negation []).run 19 s₂ := by
  intro s c s₁ s₂ s₃
  have henter : enterNode (evaluator 19) s = (.value (), s₁) :=
    Prod.ext (Outcome.value?_eq_some.mp (by decide +kernel)) rfl
  have hleft : evaluateNode 19 (.var "a") c s₁ = (.value (.object 0), s₂) :=
    Prod.ext (Outcome.value?_eq_some.mp (by decide +kernel)) rfl
  have hright : evaluateNode 19 (.literal (.int 1)) c s₂ = (.value (.int 1), s₃) :=
    Prod.ext (Outcome.value?_eq_some.mp (by decide +kernel)) rfl
  obtain ⟨sum, hsum⟩ : ∃ m, (s₂.heap.classOf 0).method? "+" 1 = some m :=
    Option.isSome_iff_exists.mp (by decide +kernel)
  obtain ⟨negation, hnegation⟩ : ∃ m, (s₂.heap.classOf 0).method? "-" 0 = some m :=
    Option.isSome_iff_exists.mp (by decide +kernel)
  obtain ⟨hbinary, hunary⟩ := overloads_called 19 c henter
  refine ⟨henter, hleft, hright, sum, negation, hsum, hnegation, ?_, ?_⟩
  · exact hbinary .add (.var "a") (.literal (.int 1)) 0 (.int 1) s₂ s₃ sum (by decide) (by decide) hleft
      hright nofun hsum
  · exact hunary .neg (.var "a") 0 s₂ negation hleft hnegation

/-- The operator `&&` asks for the truth of an instance, which its class does not tell, and not for the
method of its class that gives a number. -/
theorem and_asks_truth :
    let s := Host.obligingState
    let c := s.session.root
    let s₁ := (enterNode (evaluator 19) s).2
    let s₂ := (evaluateNode 19 (.var "a") c s₁).2
    let s₃ := (evaluateNode 19 (.literal (.int 1)) c s₂).2
    enterNode (evaluator 19) s = (.value (), s₁) ∧
      evaluateNode 19 (.var "a") c s₁ = (.value (.object 0), s₂) ∧
      evaluateNode 19 (.literal (.int 1)) c s₂ = (.value (.int 1), s₃) ∧
      ∃ m, (s₂.heap.classOf 0).method? "&&" 1 = some m ∧
        ((callMethod 0 m [.int 1]).run 19 s₃).1 = .value (.int 9) ∧
        evaluateNode 20 (.binary .and (.var "a") (.literal (.int 1))) c s ≠
          (callMethod 0 m [.int 1]).run 19 s₃ := by
  intro s c s₁ s₂ s₃
  obtain ⟨m, hm, hnine⟩ : ∃ m, (s₂.heap.classOf 0).method? "&&" 1 = some m ∧
      ((callMethod 0 m [.int 1]).run 19 s₃).1.value? = some (.int 9) :=
    Option.bind_eq_some_iff.mp (by decide +kernel)
  have hfails : (evaluateNode 20 (.binary .and (.var "a") (.literal (.int 1))) c s).1.value? = none := by
    decide +kernel
  refine ⟨Prod.ext (Outcome.value?_eq_some.mp (by decide +kernel)) rfl,
    Prod.ext (Outcome.value?_eq_some.mp (by decide +kernel)) rfl,
    Prod.ext (Outcome.value?_eq_some.mp (by decide +kernel)) rfl, m, hm,
    Outcome.value?_eq_some.mp hnine, fun heq => ?_⟩
  rw [heq, hnine] at hfails
  cases hfails

/-! ## Strict equality -/

/-- Strict equality without overloads compares the kinds as well. -/
theorem Heap.binary_strictEq {h : Heap} {l r : Value} (htrue : h.binary .strictEq l r = .ok (.bool true)) :
    l.kindName = r.kindName ∧ h.binary .eq l r = .ok (.bool true) := by
  unfold Heap.binary at htrue ⊢
  dsimp only at htrue ⊢
  cases hequal : h.valuesEqual l r with
  | error e =>
    rw [hequal] at htrue
    cases htrue
  | ok equal =>
    rw [hequal] at htrue
    -- what `===` gives is what `==` gives, together with whether the kinds are one
    have hboth : (equal && l.kindName == r.kindName) = true := by
      injection htrue with htrue
      injection htrue
    obtain ⟨rfl, hkind⟩ := Bool.and_eq_true_iff.mp hboth
    exact ⟨beq_iff_eq.mp hkind, rfl⟩

namespace Exec

variable {op : BinaryOp} {i : Nat} {l r : Value} {m : Routine} {ev : Evaluator} {s t : State}

/-- The truth of what `==` gives. -/
def looselyEqual (l r : Value) : Exec Bool := do toBool (← applyBinary .eq l r)

/-- What a method of an object says about a value. -/
def saysOf (i : Nat) (m : Routine) (r : Value) : Exec Bool := do toBool (← callMethod i m [r])

theorem plainBinary_strictEq (htrue : plainBinary .strictEq l r ev s = (.value (.bool true), t)) :
    l.kindName = r.kindName ∧ plainBinary .eq l r ev s = (.value (.bool true), s) ∧ t = s := by
  have hplain (op : BinaryOp) (hop : joinsText op l r = false) :
      plainBinary op l r ev s = ofChecked (s.heap.binary op l r) ev s := by
    unfold plainBinary
    rw [hop]
    rfl
  rw [hplain .strictEq rfl] at htrue
  rw [hplain .eq rfl]
  rcases h : s.heap.binary .strictEq l r with (e | e) | v
  · rw [h] at htrue
    cases htrue
  · rw [h] at htrue
    cases htrue
  · rw [h] at htrue
    cases htrue
    obtain ⟨hkind, hequal⟩ := Heap.binary_strictEq h
    rw [hequal]
    exact ⟨hkind, rfl, rfl⟩

/-- An equality that the class of the object has no method for asks the method for `==`. -/
theorem objectBinary_apply_equality (hop : op = .eq ∨ op = .notEq ∨ op = .strictEq)
    (hnone : (s.heap.classOf i).method? op.symbol 1 = none) :
    objectBinary op i r ev s =
      match (s.heap.classOf i).method? BinaryOp.eq.symbol 1 with
      | some m => (do
          let equal ← toBool (← callMethod i m [r])
          return .bool (equal != (op == .notEq)) : Exec Value) ev s
      | none => (.value (.bool ((r == .object i) != (op == .notEq))), s) := by
  unfold objectBinary
  rw [bind_apply]
  dsimp only [heap]
  rw [hnone]
  dsimp only
  -- the next thing asked for is the method for `==`
  rw [if_pos hop]
  cases (s.heap.classOf i).method? BinaryOp.eq.symbol 1 <;> rfl

/-- An object is asked by strict equality what it is asked by `==`. -/
theorem saysOf_of_strictEq (hnone : (s.heap.classOf i).method? BinaryOp.strictEq.symbol 1 = none)
    (hm : (s.heap.classOf i).method? BinaryOp.eq.symbol 1 = some m)
    (htrue : objectBinary .strictEq i r ev s = (.value (.bool true), t)) :
    saysOf i m r ev s = (.value true, t) := by
  have hasked : objectBinary .strictEq i r ev s =
      (saysOf i m r >>= fun equal => pure (.bool (equal != false)) : Exec Value) ev s := by
    rw [objectBinary_apply_equality (Or.inr (Or.inr rfl)) hnone, hm, saysOf, bind_assoc]
    rfl
  rw [hasked, bind_apply] at htrue
  rcases h : saysOf i m r ev s with ⟨equal | g | k, u⟩
  · rw [h] at htrue
    cases equal <;> cases htrue
    rfl
  · rw [h] at htrue
    cases htrue
  · rw [h] at htrue
    cases htrue

/-- Without overloads an object is equal to itself only. -/
theorem same_of_strictEq (hnone : (s.heap.classOf i).method? BinaryOp.strictEq.symbol 1 = none)
    (hm : (s.heap.classOf i).method? BinaryOp.eq.symbol 1 = none)
    (htrue : objectBinary .strictEq i r ev s = (.value (.bool true), t)) : r = .object i ∧ t = s := by
  rw [objectBinary_apply_equality (Or.inr (Or.inr rfl)) hnone, hm] at htrue
  cases hsame : r == .object i with
  | false =>
    rw [hsame] at htrue
    cases htrue
  | true =>
    rw [hsame] at htrue
    cases htrue
    exact ⟨beq_iff_eq.mp hsame, rfl⟩

theorem looselyEqual_apply_some (hr : ∀ x, r ≠ .str x)
    (hm : (s.heap.classOf i).method? BinaryOp.eq.symbol 1 = some m) :
    looselyEqual (.object i) r ev s = saysOf i m r ev s := by
  rw [looselyEqual, saysOf, applyBinary_object hr, bind_apply, bind_apply, objectBinary_apply_some hm]

theorem looselyEqual_of_applyBinary (htrue : applyBinary .eq l r ev s = (.value (.bool true), t)) :
    looselyEqual l r ev s = (.value true, t) := by
  rw [looselyEqual, bind_apply, htrue]
  rfl

end Exec

/-- **What is strictly equal is equal, and of one kind**, where no overload of `===` decides it: `==` holds
when it is asked instead, and also afterwards if its overload goes on saying the same.  The kinds are the
same unless it is this overload that has an object be equal to what is none. -/
theorem kind_eq_of_strictEq {fuel : Nat} {l r : Value} {s t : State}
    (hstrict : ∀ i, l = .object i → (s.heap.classOf i).method? BinaryOp.strictEq.symbol 1 = none)
    (htrue : (applyBinary .strictEq l r).run fuel s = (.value (.bool true), t)) :
    ((∀ i m, l = .object i → (s.heap.classOf i).method? BinaryOp.eq.symbol 1 = some m →
        ∃ j, r = .object j) → l.kindName = r.kindName) ∧
      ((looselyEqual l r).run fuel s).1 = .value true ∧
      ((∀ i m, l = .object i → (s.heap.classOf i).method? BinaryOp.eq.symbol 1 = some m →
          ((saysOf i m r).run fuel t).1 = ((saysOf i m r).run fuel s).1) →
        ((looselyEqual l r).run fuel t).1 = .value true) := by
  have hkept := applyBinary_keeps fuel .strictEq l r s
  rw [htrue] at hkept
  unfold Exec.run at htrue ⊢
  by_cases hl : ∃ i, l = .object i
  · obtain ⟨i, rfl⟩ := hl
    by_cases hr : ∃ x, r = .str x
    · -- an object and a string
      obtain ⟨x, rfl⟩ := hr
      cases htrue
    · have hr' : ∀ x, r ≠ .str x := not_exists.mp hr
      rw [applyBinary_object hr'] at htrue
      cases hm : (s.heap.classOf i).method? BinaryOp.eq.symbol 1 with
      | some m =>
        have hyes := saysOf_of_strictEq (hstrict i rfl) hm htrue
        refine ⟨fun hobject => ?_, ?_, fun hagain => ?_⟩
        · obtain ⟨j, rfl⟩ := hobject i m rfl hm
          rfl
        · rw [looselyEqual_apply_some hr' hm, hyes]
        · rw [looselyEqual_apply_some hr' (hkept.method? hm), hagain i m rfl hm, hyes]
      | none =>
        obtain ⟨rfl, rfl⟩ := same_of_strictEq (hstrict i rfl) hm htrue
        have hequal : applyBinary .eq (.object i) (.object i) (evaluator fuel) t =
            (.value (.bool true), t) := by
          rw [applyBinary_object hr', objectBinary_apply_equality (Or.inl rfl) hm, hm]
          simp
        rw [looselyEqual_of_applyBinary hequal]
        exact ⟨fun _ => rfl, rfl, fun _ => rfl⟩
  · have hl' : ∀ i, l ≠ .object i := not_exists.mp hl
    by_cases htext : (∃ x, l = .str x) ∧ ∃ j, r = .object j
    · -- a string and an object
      obtain ⟨⟨x, rfl⟩, j, rfl⟩ := htext
      cases htrue
    · rw [applyBinary_plain hl' htext] at htrue
      obtain ⟨hkind, hequal, rfl⟩ := plainBinary_strictEq htrue
      rw [← applyBinary_plain hl' htext] at hequal
      rw [looselyEqual_of_applyBinary hequal]
      exact ⟨fun _ => hkind, rfl, fun _ => rfl⟩

/-- Two instances of a class whose instances are equal to everything are strictly equal, and equal before
and after. -/
theorem kind_eq_of_strictEq_instances :
    let s := Host.obligingState
    let t := ((applyBinary .strictEq (.object 0) (.object 1)).run 20 s).2
    (applyBinary .strictEq (.object 0) (.object 1)).run 20 s = (.value (.bool true), t) ∧
      (s.heap.classOf 0).method? "===" 1 = none ∧
      Value.kindName (.object 0) = Value.kindName (.object 1) ∧
      ((looselyEqual (.object 0) (.object 1)).run 20 s).1 = .value true ∧
      ((looselyEqual (.object 0) (.object 1)).run 20 t).1 = .value true := by
  intro s t
  have htrue : (applyBinary .strictEq (.object 0) (.object 1)).run 20 s = (.value (.bool true), t) :=
    Prod.ext (Outcome.value?_eq_some.mp (by decide +kernel)) rfl
  have hnone : (s.heap.classOf 0).method? "===" 1 = none :=
    Option.isNone_iff_eq_none.mp (by decide +kernel)
  have hstrict : ∀ i, Value.object 0 = .object i →
      (s.heap.classOf i).method? BinaryOp.strictEq.symbol 1 = none := by
    rintro _ ⟨⟩
    exact hnone
  have hanswers : (((s.heap.classOf 0).method? "==" 1).map fun m =>
      (((saysOf 0 m (.object 1)).run 20 s).1.value?, ((saysOf 0 m (.object 1)).run 20 t).1.value?)) =
        some (some true, some true) := by decide +kernel
  obtain ⟨m, hm, hyes⟩ := Option.map_eq_some_iff.mp hanswers
  obtain ⟨hyes, hagain⟩ := Prod.ext_iff.mp hyes
  obtain ⟨hkind, hbefore, hafter⟩ := kind_eq_of_strictEq hstrict htrue
  refine ⟨htrue, hnone, hkind fun _ _ _ _ => ⟨1, rfl⟩, hbefore, hafter ?_⟩
  rintro _ m' ⟨⟩ hm'
  cases hm.symm.trans hm'
  rw [Outcome.value?_eq_some.mp hyes, Outcome.value?_eq_some.mp hagain]

/-- With a number, which is of another kind, the instances are strictly equal as well. -/
theorem strictEq_kinds_differ :
    let s := Host.obligingState
    (s.heap.classOf 0).method? "===" 1 = none ∧
      ((applyBinary .strictEq (.object 0) (.int 5)).run 20 s).1 = .value (.bool true) ∧
      Value.kindName (.object 0) ≠ Value.kindName (.int 5) :=
  ⟨Option.isNone_iff_eq_none.mp (by decide +kernel), Outcome.value?_eq_some.mp (by decide +kernel),
    by decide⟩

end TreeScript
