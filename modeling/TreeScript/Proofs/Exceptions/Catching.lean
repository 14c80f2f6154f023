import TreeScript.Proofs.Backtraces.Hosts
import TreeScript.Proofs.Balance
import TreeScript.Proofs.Exceptions.Making
import TreeScript.Proofs.Hierarchy.Hosts

/-
# Caught failures keep their message

When the body of a try fails, the handler is given an exception with the message with which the failure was raised,
however many calls, natives and resumes have handed it on since: the chronicle of the body tells where it was
raised, and that it has kept its message (`caught_failures_keep_message`).

The handler begins where the body has failed.  If the body has been resumed, and has failed before it came to
the `yield` at which it stopped, then there is a rest of the way back, and the handler takes the frames of it for its
own (`caught_failure_lost`).  A body that begins without a way back leaves none (`resume_evaluateNode`).
-/

namespace TreeScript

open Exec

/-! ## The end of the way back -/

/-- The way back is used up, if that is known. -/
def Invariant.arrived : Invariant where
  World := Prop
  le known known' := known → known'
  holds known s := known → s.session.resume = []
  way _ _ := True
  fits _ _ := True
  enters _ _ := True

theorem Invariant.kept_arrived : Invariant.arrived.Kept where
  le_refl _ := id
  le_trans h h' := h' ∘ h
  way_mono _ _ := trivial
  fits_mono _ _ := trivial
  marked_mono _ h := h
  fits_part _ _ := trivial
  enters_fits _ _ := trivial
  suits _ _ _ := trivial
  typed _ _ _ := trivial
  writable _ _ := trivial
  congr hs hview hknown := (congrArg View.resume hview).symm.trans (hs hknown)
  callable _ _ _ := fun _ _ _ _ => trivial
  addCallable hs _ := hs
  addCoroutine _ hs _ _ := hs
  allows _ _ _ := fun _ _ _ _ => trivial
  addFunction hs _ := hs
  reserve _ hs := hs
  remember _ _ hs _ := hs
  parsed _ _ _ _ _ := trivial
  nextFrame {known _ _ _} hs _ hresume :=
    ⟨known, id, fun hknown => absurd ((hs hknown).symm.trans hresume) nofun⟩
  forget {known _} _ _ := ⟨known, id, fun _ => rfl⟩
  way_yield _ := trivial
  way_cons _ _ _ := trivial
  barrier {known _} hs := ⟨True, trivial, ⟨fun _ => rfl, id⟩, fun _ _ _ _ => ⟨known, id, hs, id⟩⟩
  callScope {known _} hs _ := ⟨known, trivial, ⟨hs, id⟩, fun w₂ _ hle ht => ⟨w₂, hle, ht, id⟩⟩
  aside {known _} hs _ :=
    ⟨True, fun _ _ => trivial, ⟨fun _ => rfl, id⟩, fun _ _ _ _ => ⟨known, id, hs, id, fun _ _ => trivial⟩⟩
  resumed {known _ _ _ _} hs _ :=
    ⟨False, trivial, ⟨False.elim, id⟩, fun _ _ _ _ => ⟨known, id, hs, id⟩,
      fun _ _ _ _ _ _ => ⟨known, id, hs, id⟩⟩

/-- What begins without a way back leaves none. -/
theorem resume_evaluateNode (n : Nat) (e : Node) (c : Nat) {s : State} (hs : s.session.resume = []) :
    (evaluateNode n e c s).2.session.resume = [] := by
  have R := Invariant.kept_arrived.upheld.ready n
  have hagrees := R.eval (w := True) (e := e) (c := c) trivial rfl
  have hends := Invariant.eq_of_ends (fun _ h => h) (hagrees s s (Invariant.rel_self fun _ => hs))
  obtain ⟨hlax, -⟩ | ⟨-, known, hle, ht, -⟩ := hends
  · exact hlax.elim
  · exact ht (hle trivial)

/-! ## Sessions that know exceptions -/

/-- In no session that arises, and at no moment of answering a request, the class of exceptions is another one
than in the beginning: every alarm that is silent where it is known goes unnoticed. -/
theorem Host.answer_knowsException {given : ClassDef → Prop} {host : Host} (h : host.Arises given) {r : Request}
    (hr : ∀ k f, r = .addFunction k f → f.Makes (host.Knows given)) {alarm : State → Bool}
    (halarm : ∀ s, s.session.KnowsException → alarm s = false) (react : Exec Unit) (fuel : Nat) :
    host.answer (fun _ => evaluator fuel) r = host.answer (fun _ => observed alarm react fuel) r := by
  have K : ((Grounds.hierarchy (host.Knows given)).alike (evaluator fuel) (observed alarm react fuel)).Ready :=
    Grounds.ready_observed (fun _ => Grounds.lawful_hierarchy rfl fun _ _ _ => ⟨rfl, rfl⟩)
      (fun _ s hs => halarm s hs.session.exception) fuel
  exact (h.classed.answer K hr).1

/-! ## Failures that are caught -/

/-- A failure was raised by the last event that is not the end of a call, with the message that it has. -/
theorem RaisedIn.message {names : List String} {e : EvalError} {events : List CallEvent}
    (h : RaisedIn names e events) : ∃ before event after cause, events = before ++ event :: after ∧
      event.cause? = some cause ∧ (∀ event' ∈ after, event' = .ended) ∧ e.message = cause.message := by
  cases h with
  | inside hcause _ =>
    exact ⟨_, _, [], _, rfl, rfl, fun _ h => absurd h List.not_mem_nil, hcause.message⟩
  | outside hevent hafter hcause _ => exact ⟨_, _, _, _, rfl, hevent, hafter, hcause.message⟩

/-- There is room for one more call. -/
def CallStack.HasRoom (calls : CallStack) : Prop := ∀ depth, calls.limit = some depth → calls.depth < depth

theorem CallStack.HasRoom.push {calls : CallStack} (h : calls.HasRoom) (name : String) :
    ∃ calls', calls.push name = .ok calls' := by
  unfold CallStack.push
  cases hlimit : calls.limit with
  | none => exact ⟨_, rfl⟩
  | some depth => exact ⟨_, if_neg (Nat.not_le_of_lt (h depth hlimit))⟩

/-- The state in which a handler begins, with a value for its variable. -/
def State.handling (s : State) (scope : Nat) (name : String) (v : Value) : State :=
  s.withHeap ((s.heap.newScope scope).2.declare s.heap.scopes.size name .any v)

/-- A handler is about to begin after a body: in a new scope, whose only variable is a new exception with a
message. -/
structure State.HandlerBegins (t u : State) (scope : Nat) (name : String) (inner i : Nat) (message : String) :
    Prop where
  newScope : t.heap.scopes.size ≤ inner
  inside : scope < t.heap.scopes.size → u.heap.chain inner = inner :: t.heap.chain scope
  binds : ∃ slot, (∀ x, u.heap.lookupLocal inner x = if x = name then some slot else none) ∧
    u.heap.slot slot = ⟨.any, .object i, true⟩
  newObject : t.heap.objects.size ≤ i
  exception : u.heap.ExceptionAt i message

namespace Exec

section
variable {body handler : Node} {name : String} {scope n : Nat} {s t : State} {rest : List ResumeFrame}
variable {e : EvalError}

/-- A try that is not on the way back, or whose body is, evaluates the body. -/
theorem evalTry_begin (hway : s.session.resume = [] ∧ rest = [] ∨ s.session.resume = .inTry none :: rest)
    (ev : Evaluator) :
    evalTry body name handler scope ev s = runTry body name handler scope ev (s.withResume rest) := by
  unfold evalTry
  rw [bind_apply, nextFrame]
  rcases hway with ⟨hnone, rfl⟩ | hframe
  · rw [hnone, show s.withResume [] = s by rw [← hnone]; rfl]
  · rw [hframe]
    rfl

/-- A failure of the body that may be caught is made into an exception, which the handler is given. -/
theorem runTry_of_error {ev : Evaluator} (hbody : eval body scope ev s = (.signal (.error e), t))
    (hcatch : e.isCatchable = true) :
    runTry body name handler scope ev s =
      (exceptionFrom e >>= fun v => handleException name handler scope v : Exec Value) ev t := by
  unfold runTry handle
  rw [leavingFrame, mapOutcome, hbody]
  dsimp only [passedBy]
  rw [if_pos hcatch]

/-- The handler begins in the scope that binds the exception. -/
theorem handleException_apply (v : Value) (ev : Evaluator) (s : State) :
    handleException name handler scope v ev s =
      leavingFrame (.inTry (some s.heap.scopes.size)) (eval handler s.heap.scopes.size) ev
        (s.handling scope name v) := rfl

end

end Exec

/-- When an exception has been made and bound, the handler is about to begin. -/
theorem State.handlerBegins {t made : State} {root : Nat} {message : String}
    (hheap : made.heap = t.heap.withException root message) (scope : Nat) (name : String) :
    t.HandlerBegins (made.handling scope name (.object t.heap.objects.size)) scope name made.heap.scopes.size
      t.heap.objects.size message := by
  have hsize : made.heap.scopes.size = t.heap.scopes.size + 2 := by
    rw [hheap, Heap.size_scopes_withException]
  have hlt : made.heap.scopes.size < (made.heap.newScope scope).2.scopes.size :=
    Heap.size_scopes_newScope ▸ Nat.lt_succ_self _
  constructor
  case newScope => omega
  case inside =>
    intro hscope
    show _ :: (((made.heap.newScope scope).2.declare _ _ _ _).scope _).ancestors = _ :: _ :: _
    rw [Heap.scope_declare, if_pos ⟨rfl, hlt⟩, Heap.scope_newScope, if_pos rfl, hheap,
      Heap.scope_withException hscope]
  case binds =>
    refine ⟨made.heap.slots.size, fun x => ?_, Heap.slot_declare_size⟩
    show ((made.heap.newScope scope).2.declare _ _ _ _).lookupLocal _ x = _
    rw [Heap.lookupLocal_declare hlt, Heap.lookupLocal_newScope, Heap.lookupLocal, Heap.scope_size]
    by_cases hx : x = name
    · rw [if_pos ⟨rfl, hx⟩, if_pos hx]
      rfl
    · rw [if_neg fun h => hx h.2, if_neg hx]
      rfl
  case newObject => exact Nat.le_refl _
  case exception =>
    have hmade : made.heap.ExceptionAt t.heap.objects.size message := hheap ▸ Heap.exceptionAt_withException
    refine (hmade.newScope scope).declare hlt ?_ name .any _
    show (made.heap.object t.heap.objects.size).fields ≠ _
    rw [hsize, hheap, Heap.object_withException]
    show t.heap.scopes.size ≠ _
    omega

/-- **Caught failures keep their message.**  The body of a try ends with a failure that may be caught.  If nothing is
left of a way back, the handler begins, in a new scope inside that of the try, whose variable is an exception made
for it, with as many live calls as the try; and what the handler comes to, the try comes to.  The method
`getMessage` of the exception gives the message with which the failure was raised, wherever in the chronicle of the body
that was.  A try that begins without a way back leaves nothing of one.  It takes a session that is not marked,
whose budget, if it has one, allows two more nodes, with room for one more call. -/
theorem caught_failures_keep_message {body handler : Node} {name : String} {scope n : Nat} {s t : State}
    {rest : List ResumeFrame} {e : EvalError} (hknown : s.session.KnowsException)
    (hway : s.session.resume = [] ∧ rest = [] ∨ s.session.resume = .inTry none :: rest)
    (hbody : (eval body scope).run (n + 2) (s.withResume rest) = (.signal (.error e), t))
    (hcatch : e.isCatchable = true) (hback : rest = [] ∨ t.session.resume = []) (haffords : t.Affords 2)
    (hroom : s.session.calls.HasRoom) :
    ∃ u inner i,
      (evalTry body name handler scope).run (n + 2) s =
        (leavingFrame (.inTry (some inner)) (eval handler inner)).run (n + 2) u ∧
      t.HandlerBegins u scope name inner i e.message ∧
      u.session.calls = s.session.calls ∧ u.session.resume = [] ∧
      (∀ fuel, ((callNamedMethod i "getMessage" []).run fuel u).1 = .value (.str e.message)) ∧
      (∃ events r, Chronicle (n + 2) (eval body scope) (s.withResume rest) events r) ∧
      ∀ events r, Chronicle (n + 2) (eval body scope) (s.withResume rest) events r →
        ∃ before event after cause, events = before ++ event :: after ∧ event.cause? = some cause ∧
          (∀ event' ∈ after, event' = .ended) ∧ e.message = cause.message := by
  -- the body leaves as many calls as it found, and no way back
  have hcalls : t.session.calls = s.session.calls := by
    have hbalanced := evaluateNode_balanced (n + 2) body scope (s.withResume rest)
    rw [show evaluateNode (n + 2) body scope _ = _ from hbody] at hbalanced
    exact hbalanced.calls
  have hresume : t.session.resume = [] := by
    rcases hback with rfl | hback
    · have hleft := resume_evaluateNode (n + 2) body scope (s := s.withResume []) rfl
      rw [show evaluateNode (n + 2) body scope _ = _ from hbody] at hleft
      exact hleft
    · exact hback
  obtain ⟨events, r, hchronicle, hr, -⟩ :=
    (Logic.ready_chronicles (n + 2)).eval (w := ()) trivial scope (s.withResume rest) hknown
  have hknown' : t.session.KnowsException := by
    have hrun := hchronicle.eq_run.trans hbody
    rw [hrun] at hr
    exact hr
  obtain ⟨calls, hpush⟩ := hroom.push exceptionClass
  obtain ⟨calls', hpush'⟩ := hroom.push "getMessage"
  -- to make the exception takes two nodes and one call, and there is room for these
  obtain ⟨m, hmade⟩ := exceptionFrom_apply (n := n) hknown' haffords (hcalls.symm ▸ hpush) e
  generalize hstate : (t.withMeter m).withHeap (t.heap.withException t.session.root e.message) = made at hmade
  have hheap : made.heap = t.heap.withException t.session.root e.message := hstate ▸ rfl
  have hstacks : made.session.calls = t.session.calls ∧ made.session.resume = t.session.resume :=
    hstate ▸ ⟨rfl, rfl⟩
  have hbegins := State.handlerBegins hheap scope name
  refine ⟨made.handling scope name (.object t.heap.objects.size), made.heap.scopes.size, t.heap.objects.size, ?_,
    hbegins, hstacks.1.trans hcalls, hstacks.2.trans hresume, fun fuel => ?_, ⟨events, r, hchronicle⟩,
    fun events r hchronicle => ?_⟩
  · show evalTry body name handler scope (evaluator (n + 2)) s = _
    rw [evalTry_begin hway, runTry_of_error hbody hcatch, bind_apply, hmade]
    exact handleException_apply _ _ _
  · have hroom' := (hstacks.1.trans hcalls).symm ▸ hpush'
    obtain ⟨_, hmethod⟩ := callNamedMethod_getMessage hbegins.exception hroom' (evaluator fuel)
    exact congrArg Prod.fst hmethod
  · exact (hchronicle.raisedIn (congrArg Prod.fst (hchronicle.eq_run.trans hbody))).message

/-- A session in which a variable is zero, with a way back. -/
def zeroState (resume : List ResumeFrame) : State :=
  ⟨Heap.empty.newRoot.2.declare 0 "x" .any (.int 0), .empty, [],
    { Session.new 1 0 Host.bare with resume := resume }⟩

theorem hasRoom_zeroState (resume : List ResumeFrame) : (zeroState resume).session.calls.HasRoom := by
  have hcalls : (zeroState resume).session.calls = .empty (some 512) :=
    Session.new_eq (p := Session.calls) (fun _ _ _ => rfl) 1 0 Host.bare
  rw [hcalls]
  intro depth hdepth
  cases hdepth
  decide

/-- A body that divides by zero when it has been resumed behind its `yield`. -/
def yieldThenDivide : Node :=
  .block [.yieldWith none, .binary .div (.literal (.int 1)) (.var "x")]

/-- The failure of a body that has come back to its `yield` is caught. -/
theorem caught_failures_keep_message_resumed :
    let s := zeroState [.inTry none, .inBlock 0, .atYield]
    let handler : Node := .methodCall (.var "e") "getMessage" []
    ∃ (t u : State) (inner i : Nat),
      (evalTry yieldThenDivide "e" handler 0).run 6 s =
        (leavingFrame (.inTry (some inner)) (eval handler inner)).run 6 u ∧
      t.HandlerBegins u 0 "e" inner i "division by zero" ∧ u.session.resume = [] ∧
      ((callNamedMethod i "getMessage" []).run 6 u).1 = .value (.str "division by zero") := by
  intro s handler
  let rest : List ResumeFrame := [.inBlock 0, .atYield]
  let failed := (eval yieldThenDivide 0).run 6 (s.withResume rest)
  have hfailure : failed.1.failure? = some (.of .divisionByZero) := by decide +kernel
  have haffords : failed.2.session.cancellation.marked = false ∧ failed.2.session.meter.budget = none := by
    decide +kernel
  have hback : failed.2.session.resume = [] := by decide +kernel
  obtain ⟨u, inner, i, hrun, hbegins, -, hresume, hmessage, -⟩ :=
    @caught_failures_keep_message yieldThenDivide handler "e" 0 4 s failed.2 rest (.of .divisionByZero)
      (Session.knowsException_new 1 0 Host.bare) (Or.inr rfl)
      (Prod.ext (Outcome.failure?_eq_some.mp hfailure) rfl) rfl (Or.inr hback)
      ⟨haffords.1, fun b hb => absurd (haffords.2.symm.trans hb) nofun⟩ (hasRoom_zeroState _)
  exact ⟨failed.2, u, inner, i, hrun, hbegins, hresume, hmessage 6⟩

/-- A body that divides before it comes to its `yield`. -/
def divideThenYield : Node :=
  .listLiteral [.binary .div (.literal (.int 1)) (.var "x"), .yieldWith (some (.literal (.int 5)))]

/-- A handler that gives the message. -/
def messageHandler : Node := .block [.methodCall (.var "e") "getMessage" []]

/-- A coroutine that stops at the `yield` and is resumed when it can no longer divide. -/
def dividingCoroutine : Node :=
  .block [.declare .any "x" (some (.literal (.int 1))),
    .functionDef ⟨"g", [], .any, .tryCatch divideThenYield "e" messageHandler, true⟩,
    .declare .any "c" (some (.call 0 "g" [])), .call 1 "coroutine.resume" [.var "c"],
    .assign "x" (.literal (.int 0)), .call 2 "coroutine.resume" [.var "c"]]

/-- **A handler takes what is left of the way back.**  The body has failed with a division by zero, which may be
caught, before it has come to the `yield`; there is room for more calls, and no budget.  But the handler takes the
frame of the `yield` for its own, and fails.  A program comes to this with a coroutine. -/
theorem caught_failure_lost :
    let s := zeroState [.inTry none, .atYield]
    let failed := (eval divideThenYield 0).run 8 (s.withResume [.atYield])
    let lost := "cannot resume coroutine: expected yield but reached block"
    s.session.KnowsException ∧ s.session.calls.HasRoom ∧ failed.1.failure? = some (.of .divisionByZero) ∧
    failed.2.session.cancellation.marked = false ∧ failed.2.session.meter.budget = none ∧
    ((evalTry divideThenYield "e" messageHandler 0).run 8 s).1.failure? = some (.of (.custom lost)) ∧
    ((EntryPoint.evaluate dividingCoroutine).exec.run 12
      ⟨Heap.empty.newRoot.2, .empty, [], .new 1 0 { Host.bare with library := true }⟩).1.failure? =
        some ⟨.custom lost, ["g", "coroutine.resume"], []⟩ := by
  exact ⟨Session.knowsException_new 1 0 Host.bare, hasRoom_zeroState _, by decide +kernel, by decide +kernel,
    by decide +kernel, by decide +kernel, by decide +kernel⟩

end TreeScript
