import TreeScript.Proofs.Backtraces.Lawful
import TreeScript.Proofs.Logs.Fatal

/-
# Backtraces show the stack at the point of failure

A session is at rest between the evaluations of a host: no call is live in it, and it knows the class of
exceptions.  Every evaluation that a host begins in such a session has a chronicle, and leaves the session at
rest.  So the failure with which it ends has as its backtrace the calls that were live when it was raised.
-/

namespace TreeScript

open Exec

namespace Logic

/-- Every evaluation of a host has a chronicle. -/
theorem keeps_exec (n : Nat) (x : EntryPoint) : (chronicles n).Keeps x.exec := by
  have K := ready_chronicles n
  have hreset : (chronicles n).Keeps (modifySession fun s => { s with meter := s.meter.reset, resume := [] }) :=
    chronicles_value (fun _ _ _ => rfl) fun _ => ⟨⟨_, rfl⟩, rfl, rfl⟩
  cases x with
  | evaluate node => exact fun _ => keeps_evaluate K hreset trivial
  | evaluateIn node scope => exact fun _ => keeps_evaluateIn K scope hreset trivial
  | callFunction name args =>
    exact keeps_callFunction K name args (chronicles_value (fun _ _ _ => rfl) fun _ => ⟨⟨_, rfl⟩, rfl, rfl⟩)

end Logic

/-! ## Sessions at rest -/

/-- No call is live in a session, and it knows the class of exceptions. -/
structure Session.AtRest (s : Session) : Prop where
  calls : s.calls.names = []
  exception : s.KnowsException

theorem Session.atRest_new (id root : Nat) (settings : Settings) :
    (Session.new id root settings).AtRest where
  calls := Session.new_eq (p := fun s => s.calls.names) (fun _ _ _ => rfl) id root settings
  exception := Session.knowsException_new id root settings

/-- An evaluation of a host leaves the session at rest. -/
theorem Session.AtRest.run {s : State} (hs : s.session.AtRest) (fuel : Nat) (x : EntryPoint) :
    (x.exec.run fuel s).2.session.AtRest := by
  obtain ⟨events, r, hchronicle, hr, -⟩ := Logic.keeps_exec fuel x () s hs.exception
  rw [← hchronicle.eq_run]
  exact ⟨(congrArg CallStack.names hchronicle.bracketed.1).trans hs.calls, hr⟩

/-- Over every history, each session is at rest between evaluations. -/
theorem Host.serve_atRest (fuel : Nat → Nat) (rs : List Request) :
    (Host.empty.serve (fun k => evaluator (fuel k)) rs).2.All fun _ s => s.AtRest :=
  Host.serve_all (fun _ root settings => Session.atRest_new _ root settings)
    (fun _ x _ _ _ _ hs => hs.run _ x) (fun _ _ _ _ hs => ⟨hs.calls, hs.exception⟩) rs

/-! ## Backtraces -/

/-- **Backtraces show the stack at the point of failure.**  The failure with which an evaluation of a host ends was
raised by some event, after which calls have ended only: it has the message of the cause that was raised there,
and its backtrace is the calls that were live, most recent first, and is empty if none was.  That a call was
refused is the failure of the call that would have been one more than there may be, which is not in the list.
Over every history the sessions are such that this is so. -/
theorem backtraces_show_stack (fuel : Nat) (x : EntryPoint) (s : State) (hs : s.session.AtRest) :
    (∃ events r, Chronicle fuel x.exec s events r) ∧
    (∀ events r, Chronicle fuel x.exec s events r → r = x.exec.run fuel s ∧
      Bracketed s.session.calls.limit [] events ∧
      ∀ e, r.1 = .signal (.error e) →
        ∃ (before : List CallEvent) (event : CallEvent) (after : List CallEvent) (cause : ErrorCause),
        events = before ++ event :: after ∧ event.cause? = some cause ∧
        (∀ event' ∈ after, event' = .ended) ∧ e.message = cause.message ∧
        e.backtrace = liveAfter [] before ∧
        ∀ depth, e.cause = .stackOverflow depth → ∃ name, event = .refused name (.stackOverflow depth) ∧
          s.session.calls.limit = some depth ∧ e.backtrace.length = depth) ∧
    ∀ (fuel : Nat → Nat) (rs : List Request),
      ∀ session ∈ (Host.empty.serve (fun k => evaluator (fuel k)) rs).2.sessions, session.AtRest := by
  obtain ⟨events, r, hchronicle, -⟩ := Logic.keeps_exec fuel x () s hs.exception
  refine ⟨⟨events, r, hchronicle⟩, fun events r hchronicle => ?_, fun fuel rs session hsession => ?_⟩
  · obtain ⟨-, hbracketed⟩ := hchronicle.bracketed
    rw [hs.calls] at hbracketed
    refine ⟨hchronicle.eq_run, hbracketed, fun e he => ?_⟩
    have hraised := hchronicle.raisedIn he
    rw [hs.calls] at hraised
    obtain ⟨before, event, after, cause, hevents, hevent, hafter, hcause, hback⟩ := hraised.exists_event hbracketed
    refine ⟨before, event, after, cause, hevents, hevent, hafter, hcause.message, hback, fun depth hdepth => ?_⟩
    obtain ⟨name, rfl, hlimit, hle⟩ := hbracketed.eq_refused hevents (hcause.eq_overflow hdepth ▸ hevent)
    refine ⟨name, rfl, hlimit, ?_⟩
    rw [hback]
    exact Nat.le_antisymm ((hbracketed.live_before hevents).2 depth hlimit (Nat.zero_le depth)) hle
  · obtain ⟨k, hk⟩ := Array.mem_iff_getElem?.mp hsession
    exact Host.serve_atRest fuel rs k session hk

/-- Two functions, one of which calls the other, which divides by zero. -/
def dividing : Node :=
  .block [.functionDef ⟨"f", [], .any, .binary .div (.literal (.int 1)) (.literal (.int 0)), false⟩,
    .functionDef ⟨"g", [], .any, .call 0 "f" [], false⟩, .call 1 "g" []]

/-- The division fails while both are live. -/
theorem backtraces_show_stack_dividing :
    let s : State := ⟨.empty, .empty, [], .new 1 0 Host.bare⟩
    s.session.AtRest ∧
      ∃ (before : List CallEvent) (event : CallEvent) (after : List CallEvent) (cause : ErrorCause),
      Chronicle 9 (EntryPoint.evaluate dividing).exec s (before ++ event :: after)
        ((EntryPoint.evaluate dividing).exec.run 9 s) ∧
      event.cause? = some cause ∧ cause.message = "division by zero" ∧ liveAfter [] before = ["f", "g"] := by
  intro s
  have hs : s.session.AtRest := Session.atRest_new 1 0 Host.bare
  obtain ⟨⟨events, r, hchronicle⟩, hall, -⟩ := backtraces_show_stack 9 (.evaluate dividing) s hs
  obtain ⟨rfl, -, hraised⟩ := hall events r hchronicle
  have hfailed : ((EntryPoint.evaluate dividing).exec.run 9 s).1.failure? =
      some ⟨.divisionByZero, ["f", "g"], []⟩ := by decide +kernel
  obtain ⟨before, event, after, cause, rfl, hevent, -, hmessage, hback, -⟩ :=
    hraised _ (Outcome.failure?_eq_some.mp hfailed)
  exact ⟨hs, before, event, after, cause, hchronicle, hevent, hmessage.symm, hback.symm⟩

end TreeScript
