import TreeScript.Proofs.Logic.Basic

/-
# The chronicle of an evaluation

`Chronicle n x s events r` says that evaluating `x` in the state `s` with bound `n` ends with `r`, and which
calls have begun and ended in the course of it, which were refused, and which failures were raised.  It has a
rule for each way in which evaluations are put together.  All other steps are `Uneventful`: they evaluate no node,
leave the live calls as they are, and the failure with which one may end begins there.

Which calls are live at some point is told by the events before it (`liveAfter`).  The events are bracketed:
each call that begins ends (`Chronicle.bracketed`), so that after a whole chronicle those calls are live that
were live before.  A failure with which an evaluation ends was raised by the last event that is not the end of a
call.  It has the message of its cause, and as its backtrace the calls that were live when it was raised, or no
backtrace while it has left none (`Chronicle.raisedIn`).
-/

namespace TreeScript

/-! ## Events -/

/-- What happens to calls, and to failures. -/
inductive CallEvent where
  | began (name : String)
  | ended
  | raised (cause : ErrorCause)
  /-- A call does not begin, since there are as many as there may be. -/
  | refused (name : String) (cause : ErrorCause)
  deriving DecidableEq, Repr

namespace CallEvent

/-- The cause of the failure that an event raises. -/
def cause? : CallEvent → Option ErrorCause
  | raised cause | refused _ cause => some cause
  | _ => none

/-- The names of the live calls after an event, most recent first. -/
def live (names : List String) : CallEvent → List String
  | began name => name :: names
  | ended => names.tail
  | _ => names

end CallEvent

/-- The names of the live calls after some events, most recent first. -/
def liveAfter (names : List String) (events : List CallEvent) : List String :=
  events.foldl CallEvent.live names

theorem liveAfter_append (names : List String) (events events' : List CallEvent) :
    liveAfter names (events ++ events') = liveAfter (liveAfter names events) events' :=
  List.foldl_append

/-- The failure that an outcome is. -/
def Outcome.failure? {α : Type} : Outcome α → Option EvalError
  | .signal (.error e) => some e
  | _ => none

theorem Outcome.failure?_eq_some {α : Type} {o : Outcome α} {e : EvalError} :
    o.failure? = some e ↔ o = .signal (.error e) := by
  rcases o with _ | (_ | _ | _ | _ | _ | _) | _ <;> simp [failure?]

/-- The event of raising the failure that an outcome is. -/
def Outcome.raised {α : Type} (o : Outcome α) : List CallEvent :=
  (o.failure?.map fun e => CallEvent.raised e.cause).toList

/-! ## Brackets -/

/-- Calls that begin end, and one begins unless there are as many as there may be; then it is refused. -/
inductive Bracketed (limit : Option Nat) : List String → List CallEvent → Prop
  | nil {names : List String} : Bracketed limit names []
  | raised {names : List String} {cause : ErrorCause} : (∀ depth, cause ≠ .stackOverflow depth) →
      Bracketed limit names [.raised cause]
  | refused {names : List String} {depth : Nat} (name : String) : limit = some depth →
      depth ≤ names.length → Bracketed limit names [.refused name (.stackOverflow depth)]
  | call {names : List String} {name : String} {events : List CallEvent} :
      (∀ depth, limit = some depth → names.length < depth) → Bracketed limit (name :: names) events →
      Bracketed limit names (.began name :: events ++ [CallEvent.ended])
  | append {names : List String} {events events' : List CallEvent} : Bracketed limit names events →
      Bracketed limit names events' → Bracketed limit names (events ++ events')

namespace Bracketed

variable {limit : Option Nat} {names : List String} {events : List CallEvent}

/-- In the end those calls are live that were live before. -/
theorem balanced (h : Bracketed limit names events) : liveAfter names events = names := by
  induction h with
  | nil | raised _ | refused _ _ _ => rfl
  | @call names name events _ _ ih =>
    show liveAfter (name :: names) (events ++ [CallEvent.ended]) = names
    rw [liveAfter_append, ih]
    rfl
  | append _ _ ih ih' => rw [liveAfter_append, ih, ih']

/-- Until then they stay live, and no more calls than there may be. -/
theorem live_before (h : Bracketed limit names events) {before after : List CallEvent}
    (hevents : events = before ++ after) : names <:+ liveAfter names before ∧
      ∀ depth, limit = some depth → names.length ≤ depth → (liveAfter names before).length ≤ depth := by
  have hrefl : ∀ names : List String, names <:+ names ∧
      ∀ depth, limit = some depth → names.length ≤ depth → names.length ≤ depth := fun names =>
    ⟨List.suffix_rfl, fun _ _ h => h⟩
  induction h generalizing before after with
  | nil =>
    obtain ⟨rfl, -⟩ := List.append_eq_nil_iff.mp hevents.symm
    exact hrefl _
  | raised _ | refused _ _ _ =>
    rcases List.append_eq_singleton_iff.mp hevents.symm with ⟨rfl, -⟩ | ⟨rfl, -⟩ <;> exact hrefl _
  | @call names name events hbegins hinside ih =>
    rcases List.append_eq_cons_iff.mp hevents.symm with ⟨rfl, -⟩ | ⟨before', rfl, hrest⟩
    · exact hrefl names
    have hcall : names <:+ name :: names := List.suffix_cons name names
    show names <:+ liveAfter (name :: names) before' ∧
      ∀ depth, limit = some depth → _ → (liveAfter (name :: names) before').length ≤ depth
    rcases List.append_eq_append_iff.mp hrest with ⟨after', rfl, hlast⟩ | ⟨after', rfl, -⟩
    · -- all events of the call have happened, and it may have ended
      rw [liveAfter_append, hinside.balanced]
      rcases List.append_eq_singleton_iff.mp hlast.symm with ⟨rfl, -⟩ | ⟨rfl, -⟩
      · exact ⟨hcall, fun depth hlimit _ => hbegins depth hlimit⟩
      · exact hrefl names
    · obtain ⟨hsuffix, hlength⟩ := ih rfl
      exact ⟨hcall.trans hsuffix, fun depth hlimit _ => hlength depth hlimit (hbegins depth hlimit)⟩
  | @append names events events' hfirst _ ih ih' =>
    rcases List.append_eq_append_iff.mp hevents with ⟨before', rfl, hrest⟩ | ⟨after', rfl, -⟩
    · rw [liveAfter_append, hfirst.balanced]
      exact ih' hrest
    · exact ih rfl

/-- A call is refused where as many are live as there may be, and no other failure says that one was. -/
theorem eq_refused (h : Bracketed limit names events) {before after : List CallEvent} {event : CallEvent}
    {depth : Nat} (hevents : events = before ++ event :: after)
    (hcause : event.cause? = some (.stackOverflow depth)) :
    ∃ name, event = .refused name (.stackOverflow depth) ∧ limit = some depth ∧
      depth ≤ (liveAfter names before).length := by
  induction h generalizing before after with
  | nil => cases (List.append_eq_nil_iff.mp hevents.symm).2
  | @raised names cause hraised =>
    rcases List.append_eq_singleton_iff.mp hevents.symm with ⟨rfl, hlast⟩ | ⟨-, hlast⟩
    · cases hlast
      cases hcause
      exact absurd rfl (hraised depth)
    · cases hlast
  | @refused names limited name hlimit hdepth =>
    rcases List.append_eq_singleton_iff.mp hevents.symm with ⟨rfl, hlast⟩ | ⟨-, hlast⟩
    · cases hlast
      cases hcause
      exact ⟨name, rfl, hlimit, hdepth⟩
    · cases hlast
  | @call names name events _ _ ih =>
    -- the event is inside the call: its beginning and its end have no cause
    rcases List.append_eq_cons_iff.mp hevents.symm with ⟨rfl, hlast⟩ | ⟨before', rfl, hrest⟩
    · cases hlast
      cases hcause
    rcases List.append_eq_append_iff.mp hrest with ⟨after', rfl, hlast⟩ | ⟨after', hinner, hlast⟩
    · rcases List.append_eq_singleton_iff.mp hlast.symm with ⟨rfl, hended⟩ | ⟨-, hended⟩
      · cases hended
        cases hcause
      · cases hended
    · rcases List.append_eq_cons_iff.mp hlast.symm with ⟨rfl, hended⟩ | ⟨after'', rfl, -⟩
      · cases hended
        cases hcause
      · exact ih hinner
  | @append names events events' hfirst _ ih ih' =>
    -- every call of the first part has ended, so that as many are live before the second one
    rcases List.append_eq_append_iff.mp hevents with ⟨before', rfl, hrest⟩ | ⟨after', rfl, hlast⟩
    · rw [liveAfter_append, hfirst.balanced]
      exact ih' hrest
    · rcases List.append_eq_cons_iff.mp hlast.symm with ⟨rfl, hrest⟩ | ⟨after'', rfl, -⟩
      · have hbalanced := hfirst.balanced
        rw [List.append_nil] at hbalanced
        rw [hbalanced]
        exact ih' (show events' = [] ++ event :: after from hrest)
      · exact ih rfl

end Bracketed

/-! ## Chronicles -/

namespace Exec

/-- From a state a step evaluates no node and leaves the live calls as they are; the failure with which it may
end begins there. -/
structure Uneventful (n : Nat) {α : Type} (x : Exec α) (s : State) : Prop where
  alone : ∀ eval eval' : Node → Nat → State → Outcome Value × State,
    x (.untraced n eval) s = x (.untraced n eval') s
  calls : (x.run n s).2.session.calls = s.session.calls
  fresh : ∀ e, (x.run n s).1 = .signal (.error e) → e.Fresh

/-- What happens to calls when something is evaluated in a state with a bound, and how it ends. -/
inductive Chronicle : Nat → {α : Type} → Exec α → State → List CallEvent → Outcome α × State → Prop
  | uneventful {n : Nat} {α : Type} {x : Exec α} {s : State} (hx : Uneventful n x s) :
      Chronicle n x s (x.run n s).1.raised (x.run n s)
  | refused {n : Nat} {name : String} {x : Exec Value} {s : State} {e : EvalError} :
      s.session.calls.push name = .error e →
      Chronicle n (asCall name x) s [.refused name e.cause] (.signal (.error (s.session.calls.attach e)), s)
  | call {n : Nat} {name : String} {x : Exec Value} {s : State} {calls : CallStack}
      {events : List CallEvent} {r : Outcome Value × State} : s.session.calls.push name = .ok calls →
      Chronicle n x (s.withCalls calls) events r →
      Chronicle n (asCall name x) s (.began name :: events ++ [CallEvent.ended]) (endCall r)
  | next {n : Nat} {α β : Type} {x : Exec α} {f : α → Exec β} {s t : State} {a : α}
      {events events' : List CallEvent} {r : Outcome β × State} : Chronicle n x s events (.value a, t) →
      Chronicle n (f a) t events' r → Chronicle n (x >>= f) s (events ++ events') r
  | signal {n : Nat} {α β : Type} {x : Exec α} {f : α → Exec β} {s t : State} {g : Signal}
      {events : List CallEvent} : Chronicle n x s events (.signal g, t) →
      Chronicle n (x >>= f) s events (.signal g, t)
  | halted {n : Nat} {α β : Type} {x : Exec α} {f : α → Exec β} {s t : State} {k : Halt}
      {events : List CallEvent} : Chronicle n x s events (.halted k, t) →
      Chronicle n (x >>= f) s events (.halted k, t)
  | framed {n : Nat} {α β : Type} {before : State → State}
      {after : State → Outcome β × State → Outcome α × State} {x : Exec β} {s : State}
      {events : List CallEvent} {r : Outcome β × State} : Passing before after →
      Chronicle n x (before s) events r → Chronicle n (framed before after x) s events (after s r)
  | handles {n : Nat} {α : Type} {x y : Exec α} {take : Signal → Option (Exec α)} {s t : State}
      {g : Signal} {events events' : List CallEvent} {r : Outcome α × State} :
      Chronicle n x s events (.signal g, t) → take g = some y → Chronicle n y t events' r →
      Chronicle n (handle x take) s (events ++ events') r
  | passes {n : Nat} {α : Type} {x : Exec α} {take : Signal → Option (Exec α)} {s : State}
      {events : List CallEvent} {r : Outcome α × State} : Chronicle n x s events r →
      (∀ g, r.1 = .signal g → take g = none) → Chronicle n (handle x take) s events r
  | node {n : Nat} {e : Node} {c : Nat} {s : State} {events : List CallEvent}
      {r : Outcome Value × State} : Chronicle n (evalNode e c) s events r →
      Chronicle (n + 1) (eval e c) s events r
  | bound {e : Node} {c : Nat} {s : State} : Chronicle 0 (eval e c) s [] (.halted .outOfFuel, s)

section
variable {n : Nat} {α : Type} {x : Exec α} {s : State} {events : List CallEvent}
variable {r : Outcome α × State}

/-- A chronicle is that of the run. -/
theorem Chronicle.eq_run (h : Chronicle n x s events r) : r = x.run n s := by
  induction h with
  | uneventful | bound => rfl
  | refused hpush => exact (run_asCall_of_error hpush).symm
  | call hpush _ ih => rw [run_asCall_of_ok hpush, ih]
  | next _ _ ih ih' => rw [run_bind_of_value ih.symm, ih']
  | signal _ ih => exact (run_bind_of_signal ih.symm).symm
  | halted _ ih => exact (run_bind_of_halted ih.symm).symm
  | framed _ _ ih =>
    rw [ih]
    rfl
  | handles _ htake _ ih ih' => rw [run_handle_of_taken ih.symm htake, ih']
  | passes _ hpass ih =>
    rw [ih] at hpass
    rw [run_handle_of_passed hpass, ih]
  | node _ ih => exact ih

/-- A call that may begin is not one too many. -/
theorem length_lt_of_push {calls calls' : CallStack} {name : String} (h : calls.push name = .ok calls')
    {depth : Nat} (hlimit : calls.limit = some depth) : calls.names.length < depth := by
  rw [CallStack.push, hlimit] at h
  dsimp only at h
  split at h
  · cases h
  · rename_i hdepth
    exact Nat.lt_of_not_le hdepth

/-- What is refused is refused because of the limit. -/
theorem cause_of_push {calls : CallStack} {name : String} {e : EvalError}
    (h : calls.push name = .error e) :
    ∃ depth, calls.limit = some depth ∧ depth ≤ calls.names.length ∧ e = .of (.stackOverflow depth) := by
  unfold CallStack.push at h
  split at h
  · rename_i depth hlimit
    split at h
    · rename_i hdepth
      cases h
      exact ⟨depth, hlimit, hdepth, rfl⟩
    · cases h
  · cases h

/-- An evaluation leaves the live calls as they were, and the calls in between are bracketed. -/
theorem Chronicle.bracketed (h : Chronicle n x s events r) :
    r.2.session.calls = s.session.calls ∧
      Bracketed s.session.calls.limit s.session.calls.names events := by
  induction h with
  | @uneventful n α x s hx =>
    refine ⟨hx.calls, ?_⟩
    have hfresh := hx.fresh
    generalize x.run n s = r at hfresh
    rcases r with ⟨_ | (_ | _ | _ | _ | _ | e) | _, t⟩ <;> try exact .nil
    exact .raised (hfresh e rfl).cause
  | @refused n name x s e hpush =>
    obtain ⟨depth, hlimit, hdepth, rfl⟩ := cause_of_push hpush
    exact ⟨rfl, .refused name hlimit hdepth⟩
  | @call n name x s calls events r hpush _ ih =>
    obtain ⟨hcalls, hinside⟩ := ih
    have hbegins : ∀ depth, s.session.calls.limit = some depth → s.session.calls.names.length < depth :=
      fun depth hlimit => length_lt_of_push hpush hlimit
    obtain rfl := CallStack.push_eq hpush
    refine ⟨?_, .call hbegins hinside⟩
    -- the call is on top of the calls with which its body has ended, as it was when it began
    show r.2.session.calls.pop = s.session.calls
    rw [hcalls]
    rfl
  | next _ _ ih ih' | handles _ _ _ ih ih' =>
    rw [ih.1] at ih'
    exact ⟨ih'.1, ih.2.append ih'.2⟩
  | signal _ ih | halted _ ih | passes _ _ ih | node _ ih => exact ih
  | @framed n α β before after x s events r hpassing _ ih =>
    rw [hpassing.calls_before] at ih
    exact ⟨(hpassing.calls_after s r).trans ih.1, ih.2⟩
  | bound => exact ⟨rfl, .nil⟩

end
end Exec

/-! ## Failures -/

/-- A failure has the cause with which it was raised, or is one of native code with the same message. -/
def EvalError.CausedBy (e : EvalError) (cause : ErrorCause) : Prop :=
  e.cause = cause ∨ e.cause = .native cause.message

namespace EvalError.CausedBy

variable {e e' : EvalError} {cause : ErrorCause}

theorem message (h : e.CausedBy cause) : e.message = cause.message := by
  rcases h with h | h
  · rw [EvalError.message, h]
  · rw [EvalError.message, h]
    rfl

theorem becomes (h : e.CausedBy cause) (he : e.Becomes e') : e'.CausedBy cause := by
  cases he with
  | same => exact h
  | native => exact .inr (congrArg ErrorCause.native h.message)

/-- That a call was refused is the cause from the first. -/
theorem eq_overflow (h : e.CausedBy cause) {depth : Nat} (he : e.cause = .stackOverflow depth) :
    cause = .stackOverflow depth := by
  rcases h with h | h
  · exact h.symm.trans he
  · cases h.symm.trans he

end EvalError.CausedBy

/-- A failure was raised among events, before which some calls were live, and since then calls have ended only.  Its
backtrace is the calls that were live when it was raised, once it has left one of them. -/
inductive RaisedIn (names : List String) (e : EvalError) : List CallEvent → Prop
  | inside {before : List CallEvent} {cause : ErrorCause} : e.CausedBy cause → e.backtrace = [] →
      RaisedIn names e (before ++ [CallEvent.raised cause])
  | outside {before after : List CallEvent} {event : CallEvent} {cause : ErrorCause} :
      event.cause? = some cause → (∀ event' ∈ after, event' = .ended) → e.CausedBy cause →
      e.backtrace = liveAfter names before → RaisedIn names e (before ++ event :: after)

namespace RaisedIn

variable {names : List String} {limit : Option Nat} {events events' : List CallEvent} {e e' : EvalError}

theorem becomes (h : RaisedIn names e events) (he : e.Becomes e') : RaisedIn names e' events := by
  cases h with
  | inside hcause hback => exact .inside (hcause.becomes he) (he.backtrace.trans hback)
  | outside hevent hafter hcause hback =>
    exact .outside hevent hafter (hcause.becomes he) (he.backtrace.trans hback)

/-- What has happened before leaves the live calls as they were. -/
theorem append (h : RaisedIn names e events') (hbefore : liveAfter names events = names) :
    RaisedIn names e (events ++ events') := by
  cases h with
  | inside hcause hback =>
    rw [← List.append_assoc]
    exact .inside hcause hback
  | outside hevent hafter hcause hback =>
    rw [← List.append_assoc]
    refine .outside hevent hafter hcause ?_
    rw [liveAfter_append, hbefore, hback]

/-- A failure that leaves a call is given the live calls as its backtrace, unless it has one. -/
theorem leaveCall {name : String} {calls : CallStack} (h : RaisedIn (name :: names) e events)
    (hcalls : calls.names = name :: names) (hevents : Bracketed limit (name :: names) events) :
    RaisedIn names (calls.attach e) (.began name :: events ++ [CallEvent.ended]) := by
  cases h with
  | @inside before cause hcause hback =>
    -- the calls that began in the body have ended, so the live calls are those of the call that is left
    have hlive : liveAfter (name :: names) before = name :: names := by
      have hbalanced := hevents.balanced
      rw [liveAfter_append] at hbalanced
      exact hbalanced
    have hattached : calls.attach e = { e with backtrace := name :: names } := by
      rw [CallStack.attach, EvalError.withBacktrace, hback, hcalls]
      rfl
    have hsplit : CallEvent.began name :: (before ++ [CallEvent.raised cause]) ++ [CallEvent.ended] =
        (CallEvent.began name :: before) ++ CallEvent.raised cause :: [CallEvent.ended] := by simp
    rw [hattached, hsplit]
    exact .outside rfl (fun _ h => List.mem_singleton.mp h) hcause hlive.symm
  | @outside before after event cause hevent hafter hcause hback =>
    -- it was raised in a call further in, and has the live calls of that place already
    have hlive : e.backtrace ≠ [] := by
      intro hnil
      have hsuffix := (hevents.live_before rfl).1
      rw [← hback, hnil] at hsuffix
      cases List.suffix_nil.mp hsuffix
    have hattached : calls.attach e = e := by
      rw [CallStack.attach, EvalError.withBacktrace]
      exact if_neg fun h => hlive (List.isEmpty_iff.mp h)
    have hsplit : CallEvent.began name :: (before ++ event :: after) ++ [CallEvent.ended] =
        (CallEvent.began name :: before) ++ event :: (after ++ [CallEvent.ended]) := by simp
    rw [hattached, hsplit]
    refine .outside hevent (fun event' hmem => ?_) hcause hback
    exact (List.mem_append.mp hmem).elim (hafter event') List.mem_singleton.mp

/-- Where no call was live before, the backtrace is the calls that were live when the failure was raised. -/
theorem exists_event (h : RaisedIn [] e events) (hevents : Bracketed limit [] events) :
    ∃ (before : List CallEvent) (event : CallEvent) (after : List CallEvent) (cause : ErrorCause),
      events = before ++ event :: after ∧ event.cause? = some cause ∧
      (∀ event' ∈ after, event' = .ended) ∧ e.CausedBy cause ∧ e.backtrace = liveAfter [] before := by
  cases h with
  | @inside before cause hcause hback =>
    have hbalanced := hevents.balanced
    rw [liveAfter_append] at hbalanced
    exact ⟨before, _, [], cause, rfl, rfl, fun _ h => absurd h List.not_mem_nil, hcause,
      hback.trans hbalanced.symm⟩
  | outside hevent hafter hcause hback => exact ⟨_, _, _, _, rfl, hevent, hafter, hcause, hback⟩

end RaisedIn

namespace Exec

section
variable {n : Nat} {α : Type} {x : Exec α} {s : State} {events : List CallEvent}
variable {r : Outcome α × State}

/-- A failure with which an evaluation ends was raised in its chronicle. -/
theorem Chronicle.raisedIn (h : Chronicle n x s events r) {e : EvalError}
    (he : r.1 = .signal (.error e)) : RaisedIn s.session.calls.names e events := by
  induction h generalizing e with
  | @uneventful n α x s hx =>
    have hraised : RaisedIn s.session.calls.names e ([] ++ [CallEvent.raised e.cause]) :=
      .inside (.inl rfl) (hx.fresh e he).backtrace
    rw [he]
    exact hraised
  | @refused n name x s e' hpush =>
    obtain ⟨depth, -, -, rfl⟩ := cause_of_push hpush
    cases he
    have hraised : RaisedIn s.session.calls.names (s.session.calls.attach (.of (.stackOverflow depth)))
        ([] ++ CallEvent.refused name (.stackOverflow depth) :: []) :=
      .outside rfl (fun _ h => absurd h List.not_mem_nil) (.inl rfl) rfl
    exact hraised
  | @call n name x s calls events r hpush hinside ih =>
    obtain ⟨hcalls, hbracketed⟩ := hinside.bracketed
    obtain rfl := CallStack.push_eq hpush
    obtain ⟨o, t⟩ := r
    rcases o with _ | (_ | _ | _ | _ | _ | e') | _ <;> cases he
    -- what was raised inside had the name on top of its backtrace, and now leaves the call
    exact (ih rfl).leaveCall (congrArg CallStack.names hcalls) hbracketed
  | next hfirst _ _ ih' | handles hfirst _ _ _ ih' =>
    obtain ⟨hcalls, hbracketed⟩ := hfirst.bracketed
    -- the first part is bracketed, so that the same calls are live where the second one begins
    have hraised := ih' he
    rw [hcalls] at hraised
    exact hraised.append hbracketed.balanced
  | signal _ ih =>
    cases he
    exact ih rfl
  | halted _ _ => cases he
  | passes _ _ ih | node _ ih => exact ih he
  | @framed n α β before after x s events r hpassing _ ih =>
    obtain ⟨e', he', hbecomes⟩ := hpassing.failure s r e he
    have hraised := ih he'
    rw [hpassing.calls_before] at hraised
    exact hraised.becomes hbecomes
  | bound => cases he

end
end Exec
end TreeScript
