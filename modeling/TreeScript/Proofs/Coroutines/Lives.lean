import TreeScript.Proofs.Coroutines.Moments
import TreeScript.Proofs.Logic.Core
import TreeScript.Proofs.Logic.Nodes
import TreeScript.Proofs.Storage

/-
# The turns of coroutines in an evaluation

`Lives n x s turns r` says that evaluating `x` in the state `s` with bound `n` ends with `r`, and that the
coroutines have taken `turns` in the course of it.  It has a rule for each way in which evaluations are put
together.  Coroutines are made in one way, and resumed in one way: the turn in which a coroutine begins and the
one in which it stops stand around those that are taken while its body runs (`Lives.resumed`).  All other steps
are `Still`.

Whatever the turns, they take the coroutines of the state at the beginning to those of the state at the end
(`Lives.runs`), and every evaluation takes some (`Logic.ready_lives`).
-/

namespace TreeScript

open Exec

namespace Exec

/-! ## Steps -/

section
variable {α β : Type}

/-- A step that evaluates no node and leaves the coroutines as they are, where nothing is traced. -/
structure Still (x : Exec α) : Prop where
  alone : ∀ (n : Nat) (eval eval' : Node → Nat → State → Outcome Value × State) (s : State),
    x (.untraced n eval) s = x (.untraced n eval') s
  coroutines : ∀ (n : Nat) (eval : Node → Nat → State → Outcome Value × State) (s : State),
    (x (.untraced n eval) s).2.heap.coroutines = s.heap.coroutines
  leadsBack : ∀ (n : Nat) (eval : Node → Nat → State → Outcome Value × State) (s : State),
    (x (.untraced n eval) s).1.LeadsBack

/-- A coroutine is made that has not run. -/
def Starts (f : Heap → Nat × Heap) : Prop :=
  ∀ h, ∃ name ps body args origin, f h = h.newCoroutine name ps body args origin

/-- The turn in which a coroutine stops, as its body ends. -/
def stopTurn (i : Nat) : Outcome Value → Turn
  | .signal (.yieldValue _ frames) => .suspended i frames
  | _ => .finished i

/-- No coroutine of a number may be started or go on. -/
def Idle (s : State) (i : Nat) : Prop := ∀ c, s.heap.coroutines[i]? = some c → ¬ c.Waits

end

/-! ## Turns -/

/-- Which turns coroutines take when something is evaluated in a state with a bound, and how it ends. -/
inductive Lives : Nat → {α : Type} → Exec α → State → List Turn → Outcome α × State → Prop
  | still {n : Nat} {α : Type} {x : Exec α} (hx : Still x) (s : State) : Lives n x s [] (x.run n s)
  | made {n : Nat} {f : Heap → Nat × Heap} (hf : Starts f) (s : State) :
      Lives n (make fun h => (Value.coroutine (f h).1, (f h).2)) s
        [.made ((f s.heap).2.coroutine s.heap.coroutines.size)]
        (.value (.coroutine (f s.heap).1), s.withHeap (f s.heap).2)
  | idle {n : Nat} {s : State} {i : Nat} (h : Idle s i) :
      Lives n (beginCoroutine i >>= runCoroutine i) s [] ((beginCoroutine i >>= runCoroutine i).run n s)
  | resumed {n : Nat} {s : State} {i : Nat} {c : Coroutine} {turns : List Turn} {r : Outcome Value × State} :
      s.heap.coroutines[i]? = some c → c.Waits →
      Lives n (withResume c.frames (withFrame .barrier (eval c.body c.scope)))
        (s.withHeap (s.heap.setCoroutine i c.begun)) turns r →
      Lives n (beginCoroutine i >>= runCoroutine i) s (.began i :: turns ++ [stopTurn i r.1])
        (stopCoroutine i r)
  | overflow {n : Nat} {name : String} {x : Exec Value} {s : State} {e : EvalError} :
      s.session.calls.push name = .error e →
      Lives n (asCall name x) s [] (.signal (.error (s.session.calls.attach e)), s)
  | call {n : Nat} {name : String} {x : Exec Value} {s : State} {calls : CallStack} {turns : List Turn}
      {r : Outcome Value × State} : s.session.calls.push name = .ok calls →
      Lives n x (s.withCalls calls) turns r → Lives n (asCall name x) s turns (endCall r)
  | next {n : Nat} {α β : Type} {x : Exec α} {f : α → Exec β} {s t : State} {a : α}
      {turns turns' : List Turn} {r : Outcome β × State} : Lives n x s turns (.value a, t) →
      Lives n (f a) t turns' r → Lives n (x >>= f) s (turns ++ turns') r
  | signal {n : Nat} {α β : Type} {x : Exec α} {f : α → Exec β} {s t : State} {g : Signal}
      {turns : List Turn} : Lives n x s turns (.signal g, t) → Lives n (x >>= f) s turns (.signal g, t)
  | halted {n : Nat} {α β : Type} {x : Exec α} {f : α → Exec β} {s t : State} {k : Halt}
      {turns : List Turn} : Lives n x s turns (.halted k, t) → Lives n (x >>= f) s turns (.halted k, t)
  | framed {n : Nat} {α β : Type} {before : State → State}
      {after : State → Outcome β × State → Outcome α × State} {x : Exec β} {s : State}
      {turns : List Turn} {r : Outcome β × State} : Steady before after →
      Lives n x (before s) turns r → Lives n (framed before after x) s turns (after s r)
  | handles {n : Nat} {α : Type} {x y : Exec α} {take : Signal → Option (Exec α)} {s t : State}
      {g : Signal} {turns turns' : List Turn} {r : Outcome α × State} : Lives n x s turns (.signal g, t) →
      take g = some y → Lives n y t turns' r → Lives n (handle x take) s (turns ++ turns') r
  | passes {n : Nat} {α : Type} {x : Exec α} {take : Signal → Option (Exec α)} {s : State}
      {turns : List Turn} {r : Outcome α × State} : Lives n x s turns r →
      (∀ g, r.1 = .signal g → take g = none) → Lives n (handle x take) s turns r
  | node {n : Nat} {e : Node} {c : Nat} {s : State} {turns : List Turn} {r : Outcome Value × State} :
      Lives n (evalNode e c) s turns r → Lives (n + 1) (eval e c) s turns r
  | bound {e : Node} {c : Nat} {s : State} : Lives 0 (eval e c) s [] (.halted .outOfFuel, s)

/-! ## Resuming -/

section
variable {n i : Nat} {s : State} {c : Coroutine}

theorem coroutine_eq (hi : s.heap.coroutines[i]? = some c) : s.heap.coroutine i = c := by
  rw [Heap.coroutine, Array.getD_eq_getD_getElem?, hi]
  rfl

/-- A coroutine that waits runs its body. -/
theorem run_resumed (hi : s.heap.coroutines[i]? = some c) (hwaits : c.Waits) :
    (beginCoroutine i >>= runCoroutine i).run n s =
      stopCoroutine i ((withResume c.frames (withFrame .barrier (eval c.body c.scope))).run n
        (s.withHeap (s.heap.setCoroutine i c.begun))) := by
  show (beginCoroutine i >>= runCoroutine i) (evaluator n) s = _
  rw [bind_apply, beginCoroutine_apply, coroutine_eq hi, Coroutine.begin?_of_waits hwaits]
  show untilYield i _ (evaluator n) _ = _
  rw [untilYield_eq_framed]
  rfl

/-- A running coroutine is not resumed, and nothing changes. -/
theorem run_running (hi : (s.heap.coroutine i).state = .running) :
    (beginCoroutine i >>= runCoroutine i).run n s =
      (.signal (.error (.of (.custom "coroutine is already running"))), s) := by
  show (beginCoroutine i >>= runCoroutine i) (evaluator n) s = _
  rw [bind_apply, beginCoroutine_apply, Coroutine.begin?_of_running hi]

/-- A finished coroutine gives null, and nothing changes. -/
theorem run_finished (hi : (s.heap.coroutine i).state = .finished) :
    (beginCoroutine i >>= runCoroutine i).run n s = (.value .null, s) := by
  show (beginCoroutine i >>= runCoroutine i) (evaluator n) s = _
  rw [bind_apply, beginCoroutine_apply, Coroutine.begin?_of_finished hi]
  rfl

/-- An evaluation leaves the coroutines as they are, and no `yield` without a way back leaves it. -/
def Untouched {α : Type} (s : State) (r : Outcome α × State) : Prop :=
  r.2.heap.coroutines = s.heap.coroutines ∧ r.1.LeadsBack

theorem untouched_literal (n : Nat) (l : Literal) (c : Nat) (s : State) :
    Untouched s ((eval (.literal l) c).run n s) := by
  cases n with
  | zero => exact ⟨rfl, trivial⟩
  | succ n =>
    show Untouched s ((enterNode >>= fun _ => pure (Value.ofLiteral l)) (evaluator n) s)
    rw [bind_apply, enterNode_apply]
    cases s.session.cancellation.marked with
    | true => exact ⟨rfl, trivial⟩
    | false => rcases s.session.meter.step with ⟨_ | _, m⟩ <;> exact ⟨rfl, trivial⟩

/-- Where no coroutine waits, none changes. -/
theorem untouched_idle (h : Idle s i) : Untouched s ((beginCoroutine i >>= runCoroutine i).run n s) := by
  cases hi : s.heap.coroutines[i]? with
  | some c =>
    cases hstate : c.state with
    | created => exact absurd (.inl hstate) (h c hi)
    | suspended => exact absurd (.inr hstate) (h c hi)
    | running =>
      rw [run_running (by rw [coroutine_eq hi, hstate])]
      exact ⟨rfl, trivial⟩
    | finished =>
      rw [run_finished (by rw [coroutine_eq hi, hstate])]
      exact ⟨rfl, trivial⟩
  | none =>
    -- what is not there reads as a coroutine with a literal for its body
    have hsize : s.heap.coroutines.size ≤ i := Array.getElem?_eq_none_iff.mp hi
    have hset : ∀ (h : Heap) (c : Coroutine), h.coroutines = s.heap.coroutines →
        (h.setCoroutine i c).coroutines = s.heap.coroutines := by
      intro h c heq
      show h.coroutines.setIfInBounds i c = _
      rw [heq, Array.setIfInBounds_eq_of_size_le hsize]
    have hnone : s.heap.coroutine i = default := getD_of_size_le hsize
    show Untouched s ((beginCoroutine i >>= runCoroutine i) (evaluator n) s)
    rw [bind_apply, beginCoroutine_apply, hnone]
    show Untouched s (untilYield i (withResume [] (withFrame .barrier (eval (.literal .null) 0)))
      (evaluator n) _)
    rw [untilYield_apply]
    generalize hbegun : s.withHeap (s.heap.setCoroutine i _) = t
    have ht : t.heap.coroutines = s.heap.coroutines := hbegun ▸ hset s.heap _ rfl
    obtain ⟨hheap, -⟩ := untouched_literal n .null 0 (enterBody [] t)
    have hkept : ((eval (.literal .null) 0) (evaluator n) (enterBody [] t)).2.heap.coroutines =
        s.heap.coroutines := hheap.trans ht
    generalize (eval (.literal .null) 0) (evaluator n) (enterBody [] t) = r at hkept
    rcases r with ⟨_ | (_ | _ | _ | _ | _ | _) | _, u⟩ <;> exact ⟨hset _ _ hkept, trivial⟩

end

/-! ## What turns say -/

section
variable {α : Type} {n : Nat} {x : Exec α} {s : State} {turns : List Turn} {r : Outcome α × State}

/-- The turns are those of the run. -/
theorem Lives.eq_run (h : Lives n x s turns r) : r = x.run n s := by
  induction h with
  | still | made | idle | bound => rfl
  | resumed hi hwaits _ ih => rw [run_resumed hi hwaits, ← ih]
  | overflow hpush => exact (run_asCall_of_error hpush).symm
  | call hpush _ ih => rw [run_asCall_of_ok hpush, ih]
  | next _ _ ih ih' => rw [run_bind_of_value ih.symm, ih']
  | signal _ ih => exact (run_bind_of_signal ih.symm).symm
  | halted _ ih => exact (run_bind_of_halted ih.symm).symm
  | framed _ _ ih =>
    rw [ih]
    rfl
  | handles _ htake _ ih ih' => rw [run_handle_of_taken ih.symm htake, ih']
  | passes _ hpass ih =>
    rw [ih] at hpass
    rw [run_handle_of_passed hpass, ih]
  | node _ ih => exact ih

/-- A `yield` that leaves an evaluation has a way back. -/
theorem Lives.leadsBack (h : Lives n x s turns r) : r.1.LeadsBack := by
  induction h with
  | still hx s => exact hx.leadsBack _ _ s
  | made | overflow | halted | bound => trivial
  | idle h => exact (untouched_idle h).2
  | @resumed _ _ _ _ _ r _ _ _ _ =>
    rcases r with ⟨_ | (_ | _ | _ | _ | _ | _) | _, t⟩ <;> trivial
  | call _ _ ih => exact leadsBack_onErrors _ ih
  | next _ _ _ ih' => exact ih'
  | @signal _ _ _ _ _ _ _ g _ _ ih =>
    cases g with
    | yieldValue v frames => exact ih
    | _ => trivial
  | framed hsteady _ ih => exact hsteady.leadsBack _ _ ih
  | handles _ _ _ _ ih' => exact ih'
  | passes _ _ ih | node _ ih => exact ih

/-- A body that has run leaves its coroutine suspended or finished. -/
theorem runs_stopCoroutine {i : Nat} {s t : State} {c : Coroutine} {turns : List Turn} {o : Outcome Value}
    (hi : s.heap.coroutines[i]? = some c) (hwaits : c.Waits) (hback : o.LeadsBack)
    (h : Moment.Runs (s.heap.setCoroutine i c.begun).coroutines turns t.heap.coroutines) :
    Moment.Runs s.heap.coroutines (.began i :: turns ++ [stopTurn i o])
      (stopCoroutine i (o, t)).2.heap.coroutines := by
  rcases o with _ | (_ | _ | _ | ⟨v, frames⟩ | _ | _) | _
  case signal.yieldValue =>
    refine .resumed hi hwaits h fun hpending resumes => ?_
    rw [coroutine_eq hpending]
    exact .suspended hpending rfl hback
  all_goals
    refine .resumed hi hwaits h fun hpending resumes => ?_
    rw [coroutine_eq hpending]
    exact .finished hpending rfl

/-- **The turns take the coroutines to what they are at the end.** -/
theorem Lives.runs (h : Lives n x s turns r) :
    Moment.Runs s.heap.coroutines turns r.2.heap.coroutines := by
  have hsame : ∀ {cs cs' : Array Coroutine}, cs' = cs → Moment.Runs cs [] cs' := fun heq => heq ▸ .nil _
  induction h with
  | still hx s => exact hsame (hx.coroutines _ _ s)
  -- the new record has the next number, and has not begun
  | @made _ f hf s =>
    obtain ⟨name, ps, body, args, origin, heq⟩ := hf s.heap
    have hpush := s.heap.coroutines_newCoroutine name ps body args origin
    rw [← heq] at hpush
    have hmade : (f s.heap).2.coroutine s.heap.coroutines.size =
        ⟨name, ps, args, body, origin, s.heap.scopes.size, .created, []⟩ := by
      rw [Heap.coroutine, hpush, getD_push_size]
    rw [hmade]
    show Moment.Runs _ _ (f s.heap).2.coroutines
    rw [hpush]
    exact .made _ rfl rfl
  | idle h => exact hsame (untouched_idle h).1
  | resumed hi hwaits hbody ih => exact runs_stopCoroutine hi hwaits hbody.leadsBack ih
  | overflow _ | bound => exact .nil _
  | call _ _ ih | signal _ ih | halted _ ih | passes _ _ ih | node _ ih => exact ih
  | next _ _ ih ih' | handles _ _ _ ih ih' => exact ih.append ih'
  | framed hsteady _ ih =>
    rw [hsteady.coroutines_after]
    rw [hsteady.coroutines_before] at ih
    exact ih

end
end Exec

/-! ## The logic -/

/-- From every state coroutines take their turns.  Nothing is asked of the code that runs. -/
def Logic.lives (n : Nat) : Logic where
  World := Unit
  le _ _ := True
  good _ _ := True
  holds w x Q := ∀ s, ∃ turns r, Lives n x s turns r ∧ ∀ a, r.1 = .value a → Q w a
  code _ _ := True
  cls _ _ := True
  routine _ _ _ := True
  function _ _ _ := True
  enters _ _ := True

namespace Logic

section
variable {n : Nat} {α β : Type} {x : Exec α} {Q : Unit → α → Prop} {w : Unit}

theorem lives_still (hx : Still x) (hQ : ∀ s a, (x.run n s).1 = .value a → Q w a) :
    (lives n).holds w x Q :=
  fun s => ⟨_, _, .still hx s, hQ s⟩

/-- A step that does nothing else than what its law says. -/
theorem lives_keeps (hx : Still x) : (lives n).Keeps x := fun _ => lives_still hx fun _ _ _ => trivial

/-- A step that asks no evaluator. -/
theorem still_step {f : State → Outcome α × State} (hf : ∀ s, (f s).2.heap.coroutines = s.heap.coroutines)
    (hback : ∀ s, (f s).1.LeadsBack) : Still (fun _ s => f s : Exec α) :=
  ⟨fun _ _ _ _ => rfl, fun _ _ => hf, fun _ _ => hback⟩

theorem still_make {f : Heap → α × Heap} (hf : ∀ h, (f h).2.coroutines = h.coroutines) : Still (make f) :=
  still_step (f := fun s => (.value (f s.heap).1, s.withHeap (f s.heap).2)) (fun s => hf s.heap) fun _ =>
    trivial

theorem still_modifySession (f : Session → Session) : Still (modifySession f) :=
  still_step (f := fun s => (.value (), s.withSession (f s.session))) (fun _ => rfl) fun _ => trivial

theorem lives_bind {f : α → Exec β} {Q' : Unit → β → Prop} (hx : (lives n).holds w x Q)
    (hf : ∀ w', (lives n).le w w' → ∀ a, Q w' a → (lives n).holds w' (f a) Q') :
    (lives n).holds w (x >>= f) Q' := by
  intro s
  obtain ⟨turns, ⟨a | g | k, t⟩, hlives, hQ⟩ := hx s
  · obtain ⟨turns', r, hlives', hQ'⟩ := hf w trivial a (hQ a rfl) t
    exact ⟨_, r, hlives.next hlives', hQ'⟩
  · exact ⟨turns, _, hlives.signal, fun _ h => by cases h⟩
  · exact ⟨turns, _, hlives.halted, fun _ h => by cases h⟩

theorem lives_asCall {x : Exec Value} (hx : (lives n).KeepsAt w x) (name : String) :
    (lives n).KeepsAt w (asCall name x) := by
  intro s
  cases hpush : s.session.calls.push name with
  | error e => exact ⟨_, _, .overflow hpush, fun _ _ => trivial⟩
  | ok calls =>
    obtain ⟨turns, r, hlives, -⟩ := hx (s.withCalls calls)
    exact ⟨turns, _, .call hpush hlives, fun _ _ => trivial⟩

theorem lives_handle {take : Signal → Option (Exec α)} (hx : (lives n).KeepsAt w x)
    (htake : ∀ g y, take g = some y → (lives n).KeepsAt w y) : (lives n).KeepsAt w (handle x take) := by
  intro s
  obtain ⟨turns, ⟨a | g | k, t⟩, hlives, -⟩ := hx s
  · exact ⟨turns, _, hlives.passes fun _ h => (by cases h), fun _ _ => trivial⟩
  · cases hg : take g with
    | none =>
      refine ⟨turns, _, hlives.passes fun g' hg' => ?_, fun _ _ => trivial⟩
      cases hg'
      exact hg
    | some y =>
      obtain ⟨turns', r, hlives', -⟩ := htake g y hg t
      exact ⟨_, r, .handles hlives hg hlives', fun _ _ => trivial⟩
  · exact ⟨turns, _, hlives.passes fun _ h => (by cases h), fun _ _ => trivial⟩

/-- A coroutine begins, runs its body and stops, unless none waits. -/
theorem lives_resumed (i : Nat)
    (hbody : ∀ (c : Coroutine) (frames : List ResumeFrame),
      (lives n).KeepsAt w (withResume frames (withFrame .barrier (eval c.body c.scope)))) :
    (lives n).KeepsAt w (beginCoroutine i >>= runCoroutine i) := by
  intro s
  by_cases hidle : Idle s i
  · exact ⟨_, _, .idle hidle, fun _ _ => trivial⟩
  · obtain ⟨c, hc⟩ := not_forall.mp hidle
    obtain ⟨hi, hwaits⟩ := Classical.not_imp.mp hc
    obtain ⟨turns, r, hlives, -⟩ := hbody c c.frames (s.withHeap (s.heap.setCoroutine i c.begun))
    exact ⟨_, _, .resumed hi (not_not.mp hwaits) hlives, fun _ _ => trivial⟩

theorem still_enterNode : Still enterNode where
  alone _ _ _ s := by rw [enterNode_apply, enterNode_apply]
  coroutines _ _ s := by
    rw [enterNode_apply]
    split
    · rfl
    · split <;> rfl
  leadsBack _ _ s := by
    rw [enterNode_apply]
    split
    · trivial
    · split <;> trivial

theorem still_defineClass (d : ClassDecl Node) : Still (do
    let s ← ofExcept (← session fun s => s.defineClass d)
    modifySession fun _ => s) where
  alone _ _ _ s := by
    simp only [bind_apply, session]
    cases s.session.defineClass d <;> rfl
  coroutines _ _ s := by
    simp only [bind_apply, session]
    cases s.session.defineClass d <;> rfl
  leadsBack _ _ s := by
    simp only [bind_apply, session]
    cases s.session.defineClass d <;> trivial

theorem still_resolveCall (site : Nat) (name : String) (argc : Nat) :
    Still (resolveCall site name argc) where
  alone _ _ _ s := by rw [resolveCall_apply, resolveCall_apply]
  coroutines _ _ s := by
    rw [resolveCall_apply]
    cases remembered site s with
    | some callee => rfl
    | none => cases s.session.catalog.callee? name argc <;> rfl
  leadsBack _ _ s := by
    rw [resolveCall_apply]
    cases remembered site s with
    | some callee => trivial
    | none => cases s.session.catalog.callee? name argc <;> trivial

theorem still_throwing (v : Value) : Still (throwing v) where
  alone _ _ _ s := by rw [throwing_apply, throwing_apply]
  coroutines _ _ s := by rw [throwing_apply]
  leadsBack _ _ s := by
    rw [throwing_apply]
    split <;> trivial

theorem still_classForFailure (e : EvalError) : Still (classForFailure e) where
  alone _ _ _ s := by rw [classForFailure_apply, classForFailure_apply]
  coroutines _ _ s := by rw [classForFailure_apply]
  leadsBack _ _ s := by
    rw [classForFailure_apply]
    cases s.session.classes.find? exceptionClass <;> trivial

end

theorem rules_lives (n : Nat) : (lives n).Rules where
  weaken h hQ s := by
    obtain ⟨turns, r, hlives, hr⟩ := h s
    exact ⟨turns, r, hlives, fun a ha => hQ _ a (hr a ha)⟩
  step f _ h hfresh := lives_still
    (still_step (fun s => State.coroutines_of_kernel (h s trivial).1) fun s => (hfresh s).leadsBack)
    fun s => (h s trivial).2
  bind := lives_bind
  framed hx htransparent s := by
    obtain ⟨turns, r, hlives, -⟩ := hx _
    exact ⟨turns, _, hlives.framed htransparent.toSteady, fun _ _ => trivial⟩
  asCall hx name := lives_asCall hx name
  handle hx _ htake := lives_handle hx (htake _ trivial)

theorem lenient_lives (n : Nat) : (lives n).Lenient where
  le _ _ := trivial
  code _ _ := trivial
  cls _ _ := trivial
  routine _ _ _ := trivial
  enters _ _ := trivial

theorem lawful_lives (n : Nat) : (lives n).Lawful where
  toWorldLaws := (lenient_lives n).worldLaws fun _ _ _ _ => id
  toCodeLaws := (lenient_lives n).codeLaws
  toStateLaws := (lenient_lives n).stateLaws (fun _ _ _ _ _ _ _ => trivial) fun _ _ _ _ _ _ _ => trivial
  toRules := rules_lives n
  fuel := lives_keeps ⟨fun _ _ _ _ => rfl, fun _ _ _ => rfl, fun _ _ _ => trivial⟩
  enterNode := lives_keeps still_enterNode
  entering _ := lives_keeps ⟨fun _ _ _ _ => rfl, fun _ _ _ => rfl, fun _ _ _ => trivial⟩
  mark := lives_keeps (still_modifySession _)
  newObject _ _ := lives_keeps (still_make fun _ => rfl) _
  newCoroutine _ _ _ s := ⟨_, _, .made (fun _ => ⟨_, _, _, _, _, rfl⟩) s, fun _ _ => trivial⟩
  restart _ _ s := ⟨_, _, .made (fun _ => ⟨_, _, _, _, _, rfl⟩) s, fun _ _ => trivial⟩
  resumed i hbody := lives_resumed i fun c frames => hbody _ trivial c frames trivial
  newCallable _ _ := lives_keeps (still_make fun _ => rfl) _
  addFunction _ := lives_keeps (still_modifySession _) _
  defineClass {_ d} _ := lives_keeps (still_defineClass d) _
  reserve _ _ := lives_still (still_step (fun _ => rfl) fun _ => trivial) fun _ _ _ => trivial
  resolveCall _ := lives_still (still_resolveCall _ _ _) fun _ _ _ => trivial
  throwing v := lives_keeps (still_throwing v)
  classForFailure e _ := lives_still (still_classForFailure e) fun _ _ _ => trivial

/-- In every node coroutines take their turns, from every state and with every bound. -/
theorem ready_lives (n : Nat) : (lives n).Ready where
  toLawful := lawful_lives n
  eval := by
    -- with a bound of `n + 1` the nodes inside a node are evaluated with a bound of `n`
    induction n with
    | zero => exact fun _ c s => ⟨[], _, .bound, fun _ _ => trivial⟩
    | succ n ih =>
      intro _ e _ c s
      have K : (lives n).Ready := ⟨lawful_lives n, ih⟩
      have hnode : (lives n).Keeps (evalNode e c) := fun _ =>
        K.next K.enterNode fun _ _ _ => keeps_dispatch K trivial c
      obtain ⟨turns, r, hlives, -⟩ := hnode () s
      exact ⟨turns, r, .node hlives, fun _ _ => trivial⟩

end Logic
end TreeScript
