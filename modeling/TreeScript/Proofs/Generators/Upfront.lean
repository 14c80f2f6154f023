import Mathlib.Algebra.Order.BigOperators.Group.List
import Mathlib.Algebra.Order.Ring.Nat
import TreeScript.Proofs.Generators.Resumes

/-
# Yields at the head of an expression

A `yield` may also stand in an expression.  An expression takes no frame: when the body is resumed, it
is evaluated again from its beginning, and the frame of the `yield` goes to the first `yield` or
statement that is met.  So all is well where the `yield` is the first thing that the expression
evaluates (`Node.Upfront`): the body goes on right behind it, as if it were run straight through, and a
body without loops is finished when it has been resumed once more than it has yields.

Behind another part this fails.  Of two yields in one list, the first takes the frame of the second, and
the coroutine never gets past the second.
-/

namespace TreeScript

open Exec

/-! ## Positions -/

namespace Node

/-- Every `yield` of a node stands where a statement stands, or is the first thing that is evaluated of
an expression there. -/
inductive Upfront (reads : ExpressionParser → Prop) : Node → Prop
  | yieldFree {e : Node} : e.YieldFree reads → Upfront reads e
  | statement {e : Node} : e.takesFrame = true → (∀ p ∈ e.bodies, Upfront reads p) →
      (∀ p ∈ e.conditions, p.YieldFree reads) → Upfront reads e
  | first {e p : Node} : e.first? = some p → Upfront reads p →
      (∀ q ∈ e.parts.tail, q.YieldFree reads) → Upfront reads e

variable {reads : ExpressionParser → Prop}

theorem takesFrame_of_first {e p : Node} (h : e.first? = some p) : e.takesFrame = false := by
  cases e <;> first | rfl | cases h

theorem Upfront.bodies {e : Node} (h : Upfront reads e) (he : e.takesFrame = true) :
    ∀ p ∈ e.bodies, Upfront reads p := by
  cases h with
  | yieldFree h => exact fun p hp => .yieldFree (h.part (mem_parts_of_bodies hp))
  | statement _ hbodies _ => exact hbodies
  | first hfirst _ _ => cases (takesFrame_of_first hfirst).symm.trans he

theorem Upfront.conditions {e : Node} (h : Upfront reads e) (he : e.takesFrame = true) :
    ∀ p ∈ e.conditions, p.YieldFree reads := by
  cases h with
  | yieldFree h => exact fun p hp => h.part (mem_parts_of_conditions hp)
  | statement _ _ hconditions => exact hconditions
  | first hfirst _ _ => cases (takesFrame_of_first hfirst).symm.trans he

theorem Upfront.of_first {e p : Node} (h : Upfront reads e) (hp : e.first? = some p) :
    Upfront reads p ∧ ∀ q ∈ e.parts.tail, q.YieldFree reads := by
  cases h with
  | yieldFree h =>
    have hparts := Simulation.parts_of_first hp
    refine ⟨.yieldFree (h.part ?_), fun q hq => h.part (List.mem_of_mem_tail hq)⟩
    rw [hparts]
    exact List.mem_cons_self
  | statement he _ _ => cases (takesFrame_of_first hp).symm.trans he
  | first hfirst hfront hrest =>
    cases hfirst.symm.trans hp
    exact ⟨hfront, hrest⟩

theorem Upfront.yieldFree_of_plain {e : Node} (h : Upfront reads e) (hframe : e.takesFrame = false)
    (hfirst : e.first? = none) : e.YieldFree reads := by
  cases h with
  | yieldFree h => exact h
  | statement he _ _ => cases hframe.symm.trans he
  | first h _ _ => cases hfirst.symm.trans h

end Node

/-! ## Running straight through -/

/-- Run a node straight through, around which there are `depth` nodes of the same body: an expression
goes on with the value of its first part, which is run straight through as well. -/
def Straight.flow : Nat → Nat → Node → Nat → Straight Value
  | 0, _, _, _ => give (.halted .outOfFuel)
  | n + 1, depth, e, scope => do
    lift (evaluator n) enterNode
    match e.first? with
    | some p => do
      let v ← flow n (depth + 1) p scope
      lift (evaluator n) (afterFirst e scope v)
    | none => dispatch (evaluator n) (flow n (depth + 1)) depth e scope

section
variable {reads : ExpressionParser → Prop} {i : Nat} {c : Coroutine}

theorem quiet_afterFirst (hc : c.state = .running) (n : Nat) {e p : Node} (hfirst : e.first? = some p)
    (hrest : ∀ q ∈ e.parts.tail, q.YieldFree reads) (scope : Nat) (v : Value) :
    Quiet reads i c (evaluator n) (afterFirst e scope v) :=
  .of_agrees (Simulation.agrees_afterFirst (Invariant.calm_kept hc).lawful (ready_calm hc n) rfl hfirst
    (fun q hq _ => hrest q hq) v)

/-- An expression whose first part follows.  It takes no frame, so its legs begin as those of the part. -/
theorem Follows.first {kind : Node → Prop} {run : Nat → Node → Nat → Straight Value} {n : Nat}
    (ih : Follows reads i c kind run n) (hc : c.state = .running) {depth : Nat} {e p : Node}
    (scope : Nat) (hfirst : e.first? = some p) (hp : kind p)
    (hrest : ∀ q ∈ e.parts.tail, q.YieldFree reads) {outs : List State}
    (houts : ∀ t ∈ outs, t.Calm reads i c) {s : State} (hs : s.Calm reads i c) :
    Tracks reads i c (leg (n + 1) depth e scope) outs (dispatch e scope (evaluator n) s)
      ((do
        let v ← run (depth + 1) p scope
        Straight.lift (evaluator n) (afterFirst e scope v) : Straight Value) s outs) := by
  have hrun : ∀ t : State, dispatch e scope (evaluator n) t =
      sequel (afterFirst e scope) (evaluator n) (passed none (evaluateNode n p scope t)) := by
    intro t
    rw [dispatch_of_first hfirst]
    exact bind_eq_sequel _ _ _ t
  rw [hrun]
  refine ih.part (passes_sequel _ _) (fun fs t => hrun (t.withResume fs)) hp houts hs ?_
  intro outs r _ hr ht
  rcases r with ⟨v | g | h, t⟩
  · obtain ⟨hyield, hcalm⟩ := quiet_afterFirst hc n hfirst hrest scope v t ht
    exact .give hyield hcalm
  · exact .give hr ht
  · exact .give rfl ht

/-- **Leg by leg is straight through**, also where yields come first in expressions. -/
theorem follows_flow (hc : c.state = .running) (n : Nat) :
    Follows reads i c (Node.Upfront reads) (Straight.flow n) n := by
  induction n with
  | zero => exact fun _ _ _ _ _ _ hs _ => .give rfl hs
  | succ n ih =>
    intro depth e scope outs s he hs houts
    refine .lift hs (quiet_enterNode hc _) fun _ t _ ht => ?_
    -- a yield may stand in the first part of an expression, or in a statement; nothing else has one
    cases hfirst : e.first? with
    | some p =>
      obtain ⟨hp, hrest⟩ := he.of_first hfirst
      exact ih.first hc scope hfirst hp hrest houts ht
    | none =>
      cases hframe : e.takesFrame with
      | true => exact ih.statement hc scope hframe (he.bodies hframe) (he.conditions hframe) houts ht
      | false =>
        show Tracks reads i c _ outs _ (Straight.dispatch _ _ depth e scope t outs)
        rw [Straight.dispatch_plain hframe]
        exact tracks_plain hc n depth scope (he.yieldFree_of_plain hframe hfirst) ht

end

/-! ## Counting yields -/

namespace Node

theorem sizeOf_lt_of_mem_parts {e p : Node} (h : p ∈ e.parts) : sizeOf p < sizeOf e := by
  have hall : ∀ es : List Node, p ∈ es → sizeOf p < sizeOf es := fun _ => List.sizeOf_lt_of_mem
  have hoption : ∀ value : Option Node, p ∈ value.toList → sizeOf p < sizeOf value := by
    intro value hp
    cases Option.mem_toList.mp hp
    rw [Option.some.sizeOf_spec]
    omega
  have hpairs : ∀ es : List (Node × Node), p ∈ es.flatMap (fun entry => [entry.1, entry.2]) →
      sizeOf p < sizeOf es := by
    intro es hp
    obtain ⟨⟨k, e⟩, hmem, hp⟩ := List.mem_flatMap.mp hp
    have hpair := List.sizeOf_lt_of_mem hmem
    rw [Prod.mk.sizeOf_spec] at hpair
    simp only [List.mem_cons, List.not_mem_nil, or_false] at hp
    rcases hp with rfl | rfl <;> omega
  cases e with
  | literal _ | template _ | var _ | this | lambda _ _ | delete _ | continueLoop | functionDef _
  | classDef _ => cases h
  | branch arms otherwise =>
    rw [branch.sizeOf_spec]
    rcases List.mem_append.mp h with h | h
    · have hlt := hpairs arms h
      omega
    · have hlt := hoption otherwise h
      omega
  | mapLiteral es =>
    have hlt := hpairs es h
    rw [mapLiteral.sizeOf_spec]
    omega
  | _ =>
    simp only [parts, List.mem_cons, List.not_mem_nil, or_false] at h
    grind

/-- The number of yields of a body. -/
def yieldCount (e : Node) : Nat :=
  (if e.isYield then 1 else 0) + (e.parts.attach.map fun p => yieldCount p.1).sum
termination_by sizeOf e
decreasing_by exact sizeOf_lt_of_mem_parts p.2

theorem yieldCount_eq (e : Node) :
    e.yieldCount = (if e.isYield then 1 else 0) + (e.parts.map yieldCount).sum := by
  rw [yieldCount, List.attach_map_val]

theorem yieldCount_le_of_mem_parts {e p : Node} (h : p ∈ e.parts) : p.yieldCount ≤ e.yieldCount := by
  rw [yieldCount_eq e]
  exact Nat.le_add_left_of_le (List.le_sum_of_mem (List.mem_map_of_mem h))

/-- Loops of the language. -/
def isLoop : Node → Bool
  | whileLoop .. | forRange .. | forEach .. => true
  | _ => false

theorem mem_bodies_of_armBody {arms : List (Node × Node)} {otherwise : Option Node} {arm : Option Nat}
    {e : Node} (h : armBody arms otherwise arm = some e) : e ∈ (branch arms otherwise).bodies := by
  cases arm with
  | none => exact List.mem_append_right _ (Option.mem_toList.mpr h)
  | some i =>
    obtain ⟨a, ha, rfl⟩ := Option.map_eq_some_iff.mp h
    exact List.mem_append_left _ (List.mem_map_of_mem (List.mem_of_getElem? ha))

end Node

namespace Straight

variable {α β : Type} {j k : Nat}

/-- A run waits at most a number of times, in whatever states it is resumed. -/
def AtMost (k : Nat) (x : Straight α) : Prop := ∀ s outs, (x s outs).yields.length ≤ k

theorem AtMost.mono {x : Straight α} (hx : AtMost j x) (h : j ≤ k) : AtMost k x :=
  fun s outs => Nat.le_trans (hx s outs) h

theorem atMost_give (o : Outcome α) : AtMost 0 (give o) := fun _ _ => Nat.le_refl 0

theorem atMost_lift (ev : Evaluator) (x : Exec α) : AtMost 0 (lift ev x) := fun _ _ => Nat.le_refl 0

theorem atMost_emit (v : Value) : AtMost 1 (emit v) := by
  intro s outs
  cases outs <;> exact Nat.le_refl 1

theorem AtMost.andThen {x : Straight α} {f : Outcome α → Straight β} (hx : AtMost j x)
    (hf : ∀ o, AtMost k (f o)) : AtMost (j + k) (x.andThen f) := by
  intro s outs
  have hbefore := hx s outs
  unfold Straight.andThen Course.goOn
  generalize x s outs = course at hbefore ⊢
  rcases course with ⟨ys, _ | ⟨o, t⟩⟩
  · exact Nat.le_trans hbefore (Nat.le_add_right j k)
  · dsimp only
    split
    · exact Nat.le_trans (hf o t outs) (Nat.le_add_left k j)
    · have hafter := hf o t (outs.drop ys.length)
      show (ys ++ (f o t (outs.drop ys.length)).yields).length ≤ j + k
      rw [List.length_append]
      exact Nat.add_le_add hbefore hafter

theorem AtMost.bind {x : Straight α} {f : α → Straight β} (hx : AtMost j x)
    (hf : ∀ a, AtMost k (f a)) : AtMost (j + k) (x >>= f) := by
  refine hx.andThen fun o => ?_
  cases o with
  | value a => exact hf a
  | signal g => exact (atMost_give _).mono (Nat.zero_le k)
  | halted h => exact (atMost_give _).mono (Nat.zero_le k)

/-- What is done without a `yield` does not count. -/
theorem AtMost.lift_bind {ev : Evaluator} {x : Exec α} {f : α → Straight β}
    (hf : ∀ a, AtMost k (f a)) : AtMost k (lift ev x >>= f) :=
  ((atMost_lift ev x).bind hf).mono (Nat.le_of_eq (Nat.zero_add k))

section
variable {reads : ExpressionParser → Prop} {ev : Evaluator} {run : Node → Nat → Straight Value}

theorem atMost_statements (scope : Nat) (last : Value) {es : List Node}
    (h : ∀ e ∈ es, ∀ scope, AtMost e.yieldCount (run e scope)) :
    AtMost (es.map Node.yieldCount).sum (statements run scope last es) := by
  induction es generalizing last with
  | nil => exact atMost_give _
  | cons e es ih =>
    exact (h e List.mem_cons_self scope).bind fun v => ih v fun e he => h e (List.mem_cons_of_mem _ he)

theorem atMost_handler {body : Node} (h : ∀ scope, AtMost body.yieldCount (run body scope))
    (x : String) (scope : Nat) (v : Value) :
    AtMost body.yieldCount (handler ev run x body scope v) :=
  .lift_bind fun inner => h inner

/-- A statement without loops waits at most as often as it has yields, if this is so of its parts. -/
theorem atMost_dispatch {depth : Nat} {e : Node} (hloop : e.isLoop = false)
    (h : ∀ p ∈ e.bodies, ∀ scope, AtMost p.yieldCount (run p scope)) (scope : Nat) :
    AtMost e.yieldCount (dispatch ev run depth e scope) := by
  have hcount := e.yieldCount_eq
  cases e with
  | block es =>
    exact (atMost_statements scope .null h).mono (by rw [hcount]; exact Nat.le_add_left _ _)
  | branch arms otherwise =>
    refine .lift_bind fun arm => ?_
    cases harm : armBody arms otherwise arm with
    | none => exact (atMost_give _).mono (Nat.zero_le _)
    | some e =>
      have he := Node.mem_bodies_of_armBody harm
      refine .lift_bind fun inner => (h e he inner).mono ?_
      exact Node.yieldCount_le_of_mem_parts (Node.mem_parts_of_bodies he)
  | tryCatch body x catcher =>
    have hhandler : ∀ v, AtMost catcher.yieldCount (handler ev run x catcher scope v) :=
      atMost_handler (h catcher (List.mem_cons_of_mem _ List.mem_cons_self)) x scope
    have hsum : (Node.tryCatch body x catcher).yieldCount = body.yieldCount + catcher.yieldCount := by
      rw [hcount]
      simp [Node.parts, Node.isYield]
    rw [hsum]
    refine (h body List.mem_cons_self scope).andThen fun o => ?_
    rcases o with v | (_ | _ | _ | _ | v | e) | k <;>
      try exact (atMost_give _).mono (Nat.zero_le _)
    · exact hhandler v
    · show AtMost _ ((if e.isCatchable = true then _ else none : Option (Straight Value)).getD _)
      split
      · exact .lift_bind hhandler
      · exact (atMost_give _).mono (Nat.zero_le _)
  | yieldWith value =>
    have hone : 1 ≤ (Node.yieldWith value).yieldCount := by
      rw [hcount]
      exact Nat.le_add_right 1 _
    refine AtMost.mono ?_ hone
    exact .lift_bind fun v => (atMost_emit v).bind fun _ => .lift_bind fun _ => atMost_give _
  | whileLoop _ _ | forRange _ _ _ _ _ _ | forEach _ _ _ => cases hloop
  | _ => exact (atMost_lift _ _).mono (Nat.zero_le _)

/-- **A body without loops waits at most as often as it has yields.** -/
theorem atMost_flow (n depth : Nat) {e : Node} (scope : Nat) (hloop : e.Free reads Node.isLoop) :
    AtMost e.yieldCount (flow n depth e scope) := by
  induction n generalizing depth e scope with
  | zero => exact (atMost_give _).mono (Nat.zero_le _)
  | succ n ih =>
    refine .lift_bind fun _ => ?_
    -- the yields of a node are those of its first part, or those of its bodies
    cases hfirst : e.first? with
    | some p =>
      have hp : p ∈ e.parts := by
        rw [Simulation.parts_of_first hfirst]
        exact List.mem_cons_self
      refine AtMost.mono ?_ (Node.yieldCount_le_of_mem_parts hp)
      exact (ih (depth + 1) scope (hloop.part hp)).bind fun v => atMost_lift _ _
    | none =>
      exact atMost_dispatch hloop.self (fun p hp scope =>
        ih (depth + 1) scope (hloop.part (Node.mem_parts_of_bodies hp))) scope

end
end Straight
/-! ## Resumes -/

/-- A course that waits still has waited in all states in which it has been resumed. -/
theorem Leg.length_course_of_waiting (again : Leg) (fs : List ResumeFrame) {states : List State}
    (h : (again.course fs states).ends = none) :
    (again.course fs states).yields.length = states.length := by
  cases states with
  | nil => rfl
  | cons s outs => exact length_driven_of_waiting again outs (again fs s) h

/-- **Each resume passes one `yield`.**  Take a coroutine that has not begun, in whose body every `yield`
stands where a statement stands or comes first in an expression, and any number of states in which it is
resumed, where only the coroutine itself is as the resumes left it.  Then each resume answers what the
body run once and straight through comes to: the `yield` at which it waits gives null, and the next one
that it reaches waits with its own value.  If the body has no loops, it is finished when it has been
reached once more than it has yields. -/
theorem resumes_upfront {reads : ExpressionParser → Prop} {n i : Nat} {c : Coroutine}
    (hc : c.state = .created) (hframes : c.frames = []) (hbody : c.body.Upfront reads)
    {ss : List State} (hstates : ∀ s ∈ ss, i < s.heap.coroutines.size ∧ s.Discreet reads)
    (huntouched : Untouched n i c ss) :
    (ss.map fun s => withoutWay i ((resumeCoroutine i).run n s)) =
        (answers i ((Straight.flow n 0 c.body c.scope).course
          (ss.filterMap (State.opened i))).outcomes ss).map (withoutWay i) ∧
      (c.body.Free reads Node.isLoop → c.body.yieldCount < (ss.filterMap (State.opened i)).length →
        (recordAfter n i c ss).isFinished = true) := by
  have hopened := huntouched.calm_opened (by rw [hc]; nofun) hstates
  obtain ⟨hcourse, hcalm⟩ := (follows_flow rfl n).course hframes hbody hopened
  rw [← hcourse] at hcalm
  refine ⟨?_, fun hloop hmany => finished_of_ends (Or.inl hc) huntouched hcalm ?_⟩
  · rw [answers_course (Or.inl hc) huntouched hcalm, hcourse]
  · -- a course that waits still has waited more often than the body has yields
    by_contra hends
    have hlength := Leg.length_course_of_waiting _ _ (Option.not_isSome_iff_eq_none.mp hends)
    rw [hcourse] at hlength
    have hbound : ((Straight.flow n 0 c.body c.scope).course
        (ss.filterMap (State.opened i))).yields.length ≤ c.body.yieldCount := by
      cases ss.filterMap (State.opened i) with
      | nil => exact Nat.zero_le _
      | cons s outs => exact Straight.atMost_flow n 0 c.scope hloop s outs
    omega

/-! ## Two bodies -/

/-- A session with a coroutine over a body. -/
def soloState (name : String) (body : Node) : State :=
  ⟨(Heap.empty.newRoot.2.newCoroutine name [] body [] Heap.empty.newRoot.1).2, .empty, [],
    .new 1 Heap.empty.newRoot.1 Host.bare⟩

/-- The states in which a coroutine is resumed a number of times, one resume right after the other. -/
def resumedStates : Nat → State → List State
  | 0, _ => []
  | k + 1, s => s :: resumedStates k ((resumeCoroutine 0).run 20 s).2

theorem untouched_resumedStates (k : Nat) (s : State) :
    Untouched 20 0 (s.heap.coroutine 0) (resumedStates k s) := by
  induction k generalizing s with
  | zero => trivial
  | succ k ih => exact ⟨rfl, ih _⟩

/-- A body whose yields come first in a declaration, in a list and in a comparison. -/
def questionsBody : Node :=
  .block [.declare .any "x" (some (.yieldWith (some (.literal (.int 1))))),
    .assign "x" (.listLiteral [.yieldWith (some (.literal (.int 2))), .literal (.str "a")]),
    .returnWith (some (.binary .eq (.yieldWith (some (.literal (.int 3)))) (.literal .null)))]

theorem upfront_yieldLiteral (reads : ExpressionParser → Prop) (l : Literal) :
    (Node.yieldWith (some (.literal l))).Upfront reads := by
  refine .statement rfl nofun fun p hp => ?_
  cases List.mem_singleton.mp hp
  exact Node.free_literal (fun _ => rfl) l

theorem upfront_questionsBody (reads : ExpressionParser → Prop) : questionsBody.Upfront reads := by
  have hrest : ∀ (l : Literal), ∀ q ∈ [Node.literal l], q.YieldFree reads := by
    intro l q hq
    cases List.mem_singleton.mp hq
    exact Node.free_literal (fun _ => rfl) l
  refine .statement rfl (fun p hp => ?_) (by simp [questionsBody, Node.conditions])
  simp only [questionsBody, Node.bodies, List.mem_cons, List.not_mem_nil, or_false] at hp
  rcases hp with rfl | rfl | rfl
  · exact .first rfl (upfront_yieldLiteral reads _) (by simp [Node.parts])
  · exact .first rfl (.first rfl (upfront_yieldLiteral reads _) (hrest _)) (by simp [Node.parts])
  · exact .first rfl (.first rfl (upfront_yieldLiteral reads _) (hrest _)) (by simp [Node.parts])

theorem loopFree_questionsBody (reads : ExpressionParser → Prop) :
    questionsBody.Free reads Node.isLoop := by
  have hliteral : ∀ l, (Node.literal l).Free reads Node.isLoop := Node.free_literal fun _ => rfl
  have hyield : ∀ l, (Node.yieldWith (some (.literal l))).Free reads Node.isLoop := fun l =>
    Node.free_of_parts rfl (by simp) (by simp [Node.parts, hliteral])
  have hlist : (Node.listLiteral [.yieldWith (some (.literal (.int 2))), .literal (.str "a")]).Free reads
      Node.isLoop := Node.free_of_parts rfl (by simp) (by simp [Node.parts, hyield, hliteral])
  have hbinary : (Node.binary .eq (.yieldWith (some (.literal (.int 3)))) (.literal .null)).Free reads
      Node.isLoop := Node.free_of_parts rfl (by simp) (by simp [Node.parts, hyield, hliteral])
  refine Node.free_of_parts rfl (by simp [questionsBody]) ?_
  simp only [questionsBody, Node.parts, List.mem_cons, List.not_mem_nil, or_false, forall_eq_or_imp,
    forall_eq]
  exact ⟨Node.free_of_parts rfl (by simp) (by simp [Node.parts, hyield]),
    Node.free_of_parts rfl (by simp) (by simp [Node.parts, hlist]),
    Node.free_of_parts rfl (by simp) (by simp [Node.parts, hbinary])⟩

theorem yieldCount_questionsBody : questionsBody.yieldCount = 3 := by
  simp [questionsBody, Node.yieldCount_eq, Node.parts, Node.isYield]

/-- The states in which the questions are asked: once more than there are answers. -/
def questionsStates : List State := resumedStates 5 (soloState "questions" questionsBody)

/-- The coroutine asks its three questions, goes on with null each time, and is finished. -/
theorem resumes_upfront_questions :
    (questionsStates.map fun s => withoutWay 0 ((resumeCoroutine 0).run 20 s)) =
        (answers 0 ((Straight.flow 20 0 questionsBody 1).course
          (questionsStates.filterMap (State.opened 0))).outcomes questionsStates).map (withoutWay 0) ∧
      (recordAfter 20 0 ((soloState "questions" questionsBody).heap.coroutine 0)
        questionsStates).isFinished = true ∧
      questionsStates.map (fun s => ((resumeCoroutine 0).run 20 s).1.value?) =
        [some (.int 1), some (.int 2), some (.int 3), some (.bool true), some .null] := by
  have hstates : ∀ s ∈ questionsStates,
      0 < s.heap.coroutines.size ∧ s.Discreet fun _ => False := by
    intro s hs
    simp only [questionsStates, resumedStates, List.mem_cons, List.not_mem_nil, or_false] at hs
    rcases hs with rfl | rfl | rfl | rfl | rfl <;>
      exact ⟨by decide +kernel, State.discreet_of_noNative (by decide +kernel) (by decide +kernel)
        (by decide +kernel)⟩
  obtain ⟨hanswers, hfinished⟩ := resumes_upfront rfl rfl (upfront_questionsBody _) hstates
    (untouched_resumedStates 5 _)
  refine ⟨hanswers, hfinished (loopFree_questionsBody _) ?_, by decide +kernel⟩
  show questionsBody.yieldCount < _
  rw [yieldCount_questionsBody]
  decide +kernel

/-- A body with two yields in one list. -/
def siblingsBody : Node :=
  .listLiteral [.yieldWith (some (.literal (.int 1))), .yieldWith (some (.literal (.int 2)))]

/-- **The first of two siblings takes the frame of the second.**  The body has two yields, no loop and no
call, but it is not finished when it has been resumed three times: the third resume does not go on behind
the second `yield`, at which the coroutine waits, but makes the first one give null, and the second one
waits again. -/
theorem siblings_unfinished :
    siblingsBody.Free (fun _ => False) (fun e => e.isLoop || e.isCall) ∧ siblingsBody.yieldCount = 2 ∧
      (recordAfter 20 0 ((soloState "siblings" siblingsBody).heap.coroutine 0)
        (resumedStates 3 (soloState "siblings" siblingsBody))).isFinished = false ∧
      (resumedStates 3 (soloState "siblings" siblingsBody)).map
          (fun s => ((resumeCoroutine 0).run 20 s).1.value?) =
        [some (.int 1), some (.int 2), some (.int 2)] := by
  refine ⟨?_, ?_, by decide +kernel, by decide +kernel⟩
  · have hliteral : ∀ l, (Node.literal l).Free (fun _ => False) fun e => e.isLoop || e.isCall :=
      Node.free_literal fun _ => rfl
    have hyield : ∀ l, (Node.yieldWith (some (.literal l))).Free (fun _ => False) fun e =>
        e.isLoop || e.isCall := fun l =>
      Node.free_of_parts rfl (by simp) (by simp [Node.parts, hliteral])
    exact Node.free_of_parts rfl (by simp [siblingsBody]) (by simp [siblingsBody, Node.parts, hyield])
  · simp [siblingsBody, Node.yieldCount_eq, Node.parts, Node.isYield]

end TreeScript
