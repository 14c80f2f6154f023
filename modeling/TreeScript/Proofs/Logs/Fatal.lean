import TreeScript.Proofs.Logs.Lawful

/-
# Fatal errors end the evaluation

A host enters the evaluator in three ways (`EntryPoint`).  Each has a log, in which the budget is renewed
at most once, and before anything else happens.

That a session is cancelled, its budget used up or its calls too deep is fatal: whatever the nesting of
handlers, calls, hooks, coroutines and constructors inside of which such an error is raised, nothing
happens after it has been raised, and the evaluation ends with it.
-/

namespace TreeScript

open Exec

/-- How a host evaluates something in a session. -/
inductive EntryPoint where
  | evaluate (node : Node)
  | evaluateIn (node : Node) (scope : Nat)
  | callFunction (name : String) (args : List Value)

/-- What is evaluated. -/
def EntryPoint.exec : EntryPoint → Exec Value
  | evaluate node => Exec.evaluate node
  | evaluateIn node scope => Exec.evaluateIn node scope
  | callFunction name args => Exec.callFunction name args

/-- A property of new sessions that evaluations keep, and that says nothing of what is changed from outside, holds
of every session over every history. -/
theorem Host.serve_all {P : Nat → Session → Prop} {fuel : Nat → Nat}
    (hnew : ∀ k root settings, P k (.new (k + 1) root settings))
    (hrun : ∀ k (x : EntryPoint), Simulation.Fair x.exec → ∀ heap sites s, P k s →
      P k (x.exec.run (fuel k) ⟨heap, sites, [], s⟩).2.session)
    (houtside : ∀ {k s} (catalog parser? cancellation output), P k s →
      P k { s with
        catalog := catalog, parser? := parser?, cancellation := cancellation, output := output })
    (rs : List Request) : (Host.empty.serve (fun k => evaluator (fuel k)) rs).2.All P := by
  have hentry : ∀ {host : Host} {x : EntryPoint} (k : Nat), Simulation.Fair x.exec → host.All P →
      (host.runWith k (evaluator (fuel k)) x.exec).2.All P := fun {host x} k hx h =>
    @Host.All.run _ (fun k => evaluator (fuel k)) host h k _ fun heap sites s => hrun k x hx heap sites s
  -- the claim is about a host that starts empty, and the induction needs it for every host
  suffices h : ∀ host : Host, host.All P → (host.serve (fun k => evaluator (fuel k)) rs).2.All P from
    h _ (Host.all_empty _)
  induction rs with
  | nil => exact fun _ h => h
  | cons r rs ih =>
    intro host h
    refine ih _ ?_
    cases r with
    | start settings => exact h.start fun k root => hnew k root settings
    | prepare n => exact h
    | evaluate k e => exact hentry (x := .evaluate e) k (Simulation.fair_evaluate e) h
    | callFunction k name args =>
      exact hentry (x := .callFunction name args) k (Simulation.fair_callFunction name args) h
    | addFunction k _ | removeFunction k _ _ | setParser k _ | cancel k _ | takeOutput k =>
      exact h.change k fun _ _ hs => houtside _ _ _ _ hs

namespace Exec

/-! ## Logs of whole evaluations -/

/-- From every state an evaluation has a log, in which at most the first event is a renewal. -/
def LoggedOnce (n : Nat) {α : Type} (x : Exec α) : Prop :=
  ∀ s, ∃ events r, Logs n x s events r ∧ .renewed ∉ events.tail

section
variable {α β : Type} {n : Nat} {x : Exec α}

theorem LoggedOnce.of_keeps (h : (Logic.logs n).Keeps x) : LoggedOnce n x := by
  intro s
  obtain ⟨events, r, hlog, hevents, -⟩ := h () s
  exact ⟨events, r, hlog, fun hmem => hevents (List.mem_of_mem_tail hmem)⟩

/-- Looking at the session first. -/
theorem LoggedOnce.session {f : Session → β} {g : β → Exec α} (h : ∀ b, LoggedOnce n (g b)) :
    LoggedOnce n (Exec.session f >>= g) := by
  intro s
  obtain ⟨events, r, hlog, hevents⟩ := h (f s.session) s
  have hread : Logs n (Exec.session f) s [] (.value (f s.session), s) := .plain (plain_session f) s
  exact ⟨events, r, hread.next hlog, hevents⟩

/-- Renewing the budget first. -/
theorem LoggedOnce.renew {renew : Exec Unit} (hrenew : Renews renew) (h : (Logic.logs n).Keeps x) :
    LoggedOnce n (renew >>= fun _ => x) := by
  intro s
  have hvalue : renew.run n s = (.value (), (renew.run n s).2) := Prod.ext (hrenew.value _ s) rfl
  have hfirst : Logs n renew s [.renewed] (.value (), (renew.run n s).2) := hvalue ▸ .renews hrenew s
  obtain ⟨events, r, hlog, hevents, -⟩ := h () (renew.run n s).2
  exact ⟨_, r, hfirst.next hlog, hevents⟩

theorem loggedOnce_evaluateIn (n : Nat) (node : Node) (scope : Nat) :
    LoggedOnce n (evaluateIn node scope) :=
  have K := Logic.ready_logs n
  .renew ⟨fun _ _ => rfl, fun _ _ => rfl⟩ fun _ => Logic.keeps_settleTop K (K.eval trivial scope)

theorem loggedOnce_callFunction (n : Nat) (name : String) (args : List Value) :
    LoggedOnce n (callFunction name args) := by
  have K := Logic.ready_logs n
  refine .session fun callee => ?_
  split
  · exact .of_keeps (K.fail rfl)
  · refine .renew ⟨fun _ _ => rfl, fun _ _ => rfl⟩ (K.seq (K.session _) fun root => ?_)
    exact fun _ => Logic.keeps_settleTop K (Logic.keeps_invoke K _ root trivial)

end

/-- Every evaluation has a log. -/
theorem loggedOnce_exec (n : Nat) (x : EntryPoint) : LoggedOnce n x.exec := by
  cases x with
  | evaluate node => exact .session fun root => loggedOnce_evaluateIn n node root
  | evaluateIn node scope => exact loggedOnce_evaluateIn n node scope
  | callFunction name args => exact loggedOnce_callFunction n name args

/-! ## Marked sessions -/

/-- After a session has been marked, no node is let in. -/
theorem Logs.not_entered_of_marked {n : Nat} {α : Type} {x : Exec α} {s : State} {r : Outcome α × State}
    {before after : List Event} (h : Logs n x s (before ++ .marked :: after) r) :
    .entered ∉ after := by
  obtain ⟨g, -, hrest⟩ := h.path.split
  cases hrest with
  | cons hmark hafter =>
    cases hmark
    exact (hafter.of_marked rfl).2

/-- A node of a marked session is refused, and nothing changes. -/
theorem eval_of_marked (n : Nat) (node : Node) (scope : Nat) {s : State}
    (h : s.session.cancellation.marked = true) :
    (eval node scope).run (n + 1) s = (.signal (.error (.of .cancelled)), s) := by
  have henter : enterNode (evaluator n) s = (.signal (.error (.of .cancelled)), s) := by
    rw [enterNode_apply, h]
    rfl
  show (enterNode >>= fun _ => dispatch node scope) (evaluator n) s = _
  rw [bind_apply, henter]

end Exec

/-! ## Fatal errors -/

/-- **Fatal errors end the evaluation.**  Whenever in a top-level evaluation an error is raised because the
session is cancelled, its budget used up or its calls too deep, it is the last thing that happens: no
handler begins and no node is evaluated, and the evaluation ends with this error and its message.  In no
other way does an evaluation end with such an error.  Once the session is marked, no further node is
evaluated. -/
theorem fatal_errors_last (fuel : Nat) (x : EntryPoint) (s : State) :
    (∃ events r, Logs fuel x.exec s events r) ∧
    (∀ events r, Logs fuel x.exec s events r → r = x.exec.run fuel s ∧
      (∀ before event after cause, events = before ++ event :: after → event.cause? = some cause →
        after = [] ∧ cause.isFatal = true ∧
          ∃ e, r.1 = .signal (.error e) ∧ e.cause = cause ∧ e.message = cause.message) ∧
      (∀ e, r.1 = .signal (.error e) → e.cause.isFatal = true →
        ∃ before event, events = before ++ [event] ∧ event.cause? = some e.cause) ∧
      (∀ before after, events = before ++ .marked :: after → .entered ∉ after) ∧
      (s.session.cancellation.marked = true → .entered ∉ events)) ∧
    ∀ node scope n (t : State), t.session.cancellation.marked = true →
      (eval node scope).run (n + 1) t = (.signal (.error (.of .cancelled)), t) := by
  obtain ⟨events, r, hlog, _⟩ := loggedOnce_exec fuel x s
  refine ⟨⟨events, r, hlog⟩, fun events r hlog => ⟨hlog.eq_run, ?_, ?_, ?_, ?_⟩, ?_⟩
  · intro before event after cause hevents hcause
    obtain ⟨hlast, hfatal⟩ := hlog.sealed.last hevents hcause
    obtain ⟨e, he, rfl, hcause⟩ := Outcome.eq_error_of_fatal? hfatal
    exact ⟨hlast, hcause, e, he, rfl, rfl⟩
  · intro e he hfatal
    have ho : r.1.fatal? = some e.cause := by rw [he, Outcome.fatal?_error, if_pos hfatal]
    exact hlog.sealed.exists_of_fatal? ho
  · rintro before after rfl
    exact hlog.not_entered_of_marked
  · exact fun hmarked => (hlog.path.of_marked hmarked).2
  · exact fun node scope n t ht => eval_of_marked n node scope ht

/-- A try around the end of the session does not begin its handler. -/
example :
    let body : Node := .block [.call 0 "exit" [], .literal .null]
    ((EntryPoint.evaluate (.tryCatch body "e" (.literal (.bool true)))).exec.run 9
      ⟨.empty, .empty, [], .new 1 0 ⟨.test, .buffer "", false, true, 64⟩⟩).1.fatal? =
        some .cancelled := by
  decide +kernel

end TreeScript
