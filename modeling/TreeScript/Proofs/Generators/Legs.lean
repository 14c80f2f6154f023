import TreeScript.Eval.Node
import TreeScript.Proofs.Generators.Activation
import TreeScript.Proofs.Generators.Straight

/-
# One leg after the other

The evaluator runs a body in legs: each resume evaluates it from the top, finds its way back to the
`yield`, and goes on to the next one.  `driven` puts the legs together to a course, so that they can be
compared with a run straight through.

The heart of the comparison is `driven_passed`.  A statement evaluates a part of itself, adds a frame
when a `yield` leaves the part, and takes this frame again to find the part when it is resumed.  Then
the legs of the statement are the legs of the part, one by one, and what the statement does when the
part has ended.
-/

namespace TreeScript

open Exec

/-! ## Legs -/

/-- What is evaluated with a way back in a state. -/
abbrev Leg : Type := List ResumeFrame → State → Outcome Value × State

/-- Nothing in a body takes an outcome: it leaves every statement as it is. -/
def Outcome.escapes {α : Type} : Outcome α → Bool
  | .signal (.error e) => !e.isCatchable
  | .halted _ => true
  | _ => false

/-- What is left of the way back is of no interest when an outcome leaves the body. -/
def rested {α : Type} (r : Outcome α × State) : Outcome α × State :=
  if r.1.escapes then (r.1, r.2.withResume []) else r

/-- The course of an evaluation that has come to an outcome, and is resumed in the states of a list. -/
def driven (again : Leg) : List State → Outcome Value × State → Course Value
  | [], (.signal (.yieldValue v _), t) => ⟨[(v, t)], none⟩
  | next :: outs, (.signal (.yieldValue v fs), t) => (driven again outs (again fs next)).after [(v, t)]
  | _, r => ⟨[], some (rested r)⟩

theorem driven_of_not_yield (again : Leg) (outs : List State) {r : Outcome Value × State}
    (h : r.1.isYield = false) : driven again outs r = ⟨[], some (rested r)⟩ := by
  rcases r with ⟨_ | (_ | _ | _ | _ | _ | _) | _, t⟩ <;> cases outs <;> first | rfl | cases h

theorem driven_yieldValue_cons (again : Leg) (next : State) (outs : List State) (v : Value)
    (fs : List ResumeFrame) (t : State) : driven again (next :: outs) (.signal (.yieldValue v fs), t) =
      (driven again outs (again fs next)).after [(v, t)] :=
  rfl

theorem exists_of_isYield {r : Outcome Value × State} (h : r.1.isYield = true) :
    ∃ v fs t, r = (.signal (.yieldValue v fs), t) := by
  rcases r with ⟨_ | (_ | _ | _ | ⟨v, fs⟩ | _ | _) | _, t⟩ <;> first | exact ⟨v, fs, t, rfl⟩ | cases h

theorem isYield_rested {α : Type} (r : Outcome α × State) : (rested r).1 = r.1 := by
  unfold rested
  split <;> rfl

theorem rested_of_not_escapes {α : Type} {r : Outcome α × State} (h : ¬ r.1.escapes = true) :
    rested r = r := by
  rw [rested, if_neg h]

theorem rested_rested {α : Type} (r : Outcome α × State) : rested (rested r) = rested r := by
  by_cases h : r.1.escapes = true
  · unfold rested
    rw [if_pos h, if_pos h]
    rfl
  · rw [rested_of_not_escapes h, rested_of_not_escapes h]

theorem driven_rested (again : Leg) (outs : List State) (r : Outcome Value × State) :
    driven again outs (rested r) = driven again outs r := by
  cases h : r.1.isYield with
  | true =>
    obtain ⟨v, fs, t, rfl⟩ := exists_of_isYield h
    rfl
  | false =>
    rw [driven_of_not_yield again outs h,
      driven_of_not_yield again outs (by rw [isYield_rested, h]), rested_rested]

/-! ## Statements and their parts -/

/-- A statement lets through what leaves a part of it and nothing takes. -/
structure Passes (k : Outcome Value × State → Outcome Value × State) : Prop where
  yieldValue : ∀ v fs t, k (.signal (.yieldValue v fs), t) = (.signal (.yieldValue v fs), t)
  error : ∀ e t, e.isCatchable = false → k (.signal (.error e), t) = (.signal (.error e), t)
  halted : ∀ h t, k (.halted h, t) = (.halted h, t)

/-- What leaves a part of a node, with the frame that the node adds if it is a statement. -/
def passed : Option ResumeFrame → Outcome Value × State → Outcome Value × State
  | some frame, r => (passedBy frame r.1, r.2)
  | none, r => r

theorem passed_yieldValue (frame : Option ResumeFrame) (v : Value) (fs : List ResumeFrame) (t : State) :
    passed frame (.signal (.yieldValue v fs), t) =
      (.signal (.yieldValue v (frame.toList ++ fs)), t) := by
  cases frame <;> rfl

theorem passed_of_not_yield (frame : Option ResumeFrame) {r : Outcome Value × State}
    (h : r.1.isYield = false) : passed frame r = r := by
  cases frame with
  | none => rfl
  | some frame => rcases r with ⟨_ | (_ | _ | _ | _ | _ | _) | _, t⟩ <;> first | rfl | cases h

namespace Passes

variable {k : Outcome Value × State → Outcome Value × State} (hk : Passes k)
include hk

theorem of_escapes {r : Outcome Value × State} (h : r.1.escapes = true) : k r = r := by
  rcases r with ⟨_ | (_ | _ | _ | _ | _ | e) | _, t⟩ <;> try cases h
  · refine hk.error e t ?_
    cases he : e.isCatchable with
    | false => rfl
    | true =>
      rw [Outcome.escapes, he] at h
      cases h
  · exact hk.halted _ t

/-- When a part has ended without a `yield`, the statement goes on. -/
theorem driven_ended (again inner : Leg) (frame : Option ResumeFrame) (outs : List State)
    {r : Outcome Value × State} {later : Outcome Value × State → List State → Course Value}
    (h : r.1.isYield = false) :
    driven again outs (k (passed frame r)) =
      (driven inner outs r).goOn outs (fun r outs => driven again outs (k r)) later := by
  rw [driven_of_not_yield inner outs h, passed_of_not_yield frame h]
  show _ = driven again outs (k (rested r))
  by_cases hescapes : r.1.escapes = true
  · rw [hk.of_escapes hescapes, hk.of_escapes (by rw [isYield_rested, hescapes]), driven_rested]
  · rw [rested_of_not_escapes hescapes]

end Passes

/-- **The legs of a statement are those of its part.**  The statement passes on what leaves its part,
first when it has come to the part by itself, and later when it has come back to it with its frame. -/
theorem driven_passed {again inner : Leg} {frame : Option ResumeFrame}
    {first later : Outcome Value × State → Outcome Value × State} (hfirst : Passes first)
    (hlater : Passes later)
    (hagain : ∀ fs s, rested (again (frame.toList ++ fs) s) = rested (later (passed frame (inner fs s))))
    (outs : List State) (r : Outcome Value × State) :
    driven again outs (first (passed frame r)) =
      (driven inner outs r).goOn outs (fun r outs => driven again outs (first r))
        fun r outs => driven again outs (later r) := by
  induction outs generalizing first r with
  | nil =>
    cases h : r.1.isYield with
    | false => exact hfirst.driven_ended again inner frame [] h
    | true =>
      obtain ⟨v, fs, t, rfl⟩ := exists_of_isYield h
      show _ = Course.mk [(v, t)] none
      rw [passed_yieldValue, hfirst.yieldValue]
      rfl
  | cons next outs ih =>
    cases h : r.1.isYield with
    | false => exact hfirst.driven_ended again inner frame (next :: outs) h
    | true =>
      obtain ⟨v, fs, t, rfl⟩ := exists_of_isYield h
      rw [passed_yieldValue, hfirst.yieldValue, driven_yieldValue_cons]
      -- the statement finds its part again, which runs its next leg
      rw [← driven_rested, hagain, driven_rested, ih hlater]
      show _ = ((driven inner outs (inner fs next)).after [(v, t)]).goOn (next :: outs) _ _
      rcases driven inner outs (inner fs next) with ⟨_ | ⟨y, ys⟩, _ | r⟩ <;> rfl

/-! ## Courses of a coroutine -/

/-- A course leaves the coroutine alone, and its way back used up. -/
structure Course.Calm (reads : ExpressionParser → Prop) (i : Nat) (c : Coroutine) {α : Type}
    (course : Course α) : Prop where
  yields : ∀ y ∈ course.yields, y.2.Calm reads i c
  ends : ∀ r, course.ends = some r → r.1.isYield = false ∧ r.2.Calm reads i c

/-- The legs that follow on an outcome make up a course. -/
structure Tracks (reads : ExpressionParser → Prop) (i : Nat) (c : Coroutine) (again : Leg)
    (outs : List State) (r : Outcome Value × State) (course : Course Value) : Prop where
  eq : driven again outs r = course
  calm : course.Calm reads i c

section
variable {reads : ExpressionParser → Prop} {i : Nat} {c : Coroutine} {α : Type}

theorem State.Calm.withResume_nil {s : State} (h : s.Calm reads i c) : s.withResume [] = s := by
  have hresume : s.session.resume = [] := h.resume
  obtain ⟨heap, sites, held, session⟩ := s
  show State.mk heap sites held { session with resume := [] } = ⟨heap, sites, held, session⟩
  rw [← hresume]

theorem State.Calm.rested_eq {r : Outcome α × State} (h : r.2.Calm reads i c) : rested r = r := by
  unfold rested
  rw [h.withResume_nil]
  split <;> rfl

theorem Course.Calm.after {course : Course α} {ys : List (Value × State)}
    (h : course.Calm reads i c) (hys : ∀ y ∈ ys, y.2.Calm reads i c) :
    (course.after ys).Calm reads i c where
  yields y hy := (List.mem_append.mp hy).elim (hys y) (h.yields y)
  ends := h.ends

/-- A course that ends waits at most once in each state in which it is resumed; one that waits still has
waited once more than it has been resumed. -/
theorem length_driven_cases (again : Leg) (outs : List State) (r : Outcome Value × State) :
    (driven again outs r).ends ≠ none ∧ (driven again outs r).yields.length ≤ outs.length ∨
      (driven again outs r).ends = none ∧ (driven again outs r).yields.length = outs.length + 1 := by
  induction outs generalizing r with
  | nil =>
    cases hr : r.1.isYield with
    | false =>
      rw [driven_of_not_yield again [] hr]
      exact Or.inl ⟨nofun, Nat.zero_le _⟩
    | true =>
      obtain ⟨v, fs, t, rfl⟩ := exists_of_isYield hr
      exact Or.inr ⟨rfl, rfl⟩
  | cons next outs ih =>
    cases hr : r.1.isYield with
    | false =>
      rw [driven_of_not_yield again _ hr]
      exact Or.inl ⟨nofun, Nat.zero_le _⟩
    | true =>
      obtain ⟨v, fs, t, rfl⟩ := exists_of_isYield hr
      rw [driven_yieldValue_cons]
      rcases ih (again fs next) with ⟨hends, hlength⟩ | ⟨hends, hlength⟩
      · exact Or.inl ⟨hends, Nat.succ_le_succ hlength⟩
      · exact Or.inr ⟨hends, congrArg (· + 1) hlength⟩

theorem length_driven (again : Leg) (outs : List State) (r : Outcome Value × State)
    (h : (driven again outs r).ends.isSome) : (driven again outs r).yields.length ≤ outs.length :=
  (length_driven_cases again outs r).elim And.right fun hwaiting => by
    rw [hwaiting.1] at h
    cases h

theorem length_driven_of_waiting (again : Leg) (outs : List State) (r : Outcome Value × State)
    (h : (driven again outs r).ends = none) :
    (driven again outs r).yields.length = outs.length + 1 :=
  (length_driven_cases again outs r).elim (fun hended => absurd h hended.1) And.right

variable {again inner : Leg} {outs : List State}

/-- The last leg has ended. -/
theorem Tracks.give {r : Outcome Value × State} (hr : r.1.isYield = false) (h : r.2.Calm reads i c) :
    Tracks reads i c again outs r ⟨[], some r⟩ where
  eq := by rw [driven_of_not_yield again outs hr, h.rested_eq]
  calm :=
    { yields := fun _ hy => by cases hy
      ends := fun r' hr' => by
        cases hr'
        exact ⟨hr, h⟩ }

/-- What is left of the way back does not matter when the body has been left. -/
theorem Tracks.of_rested {r r' : Outcome Value × State} {course : Course Value}
    (h : rested r = rested r') (hr' : Tracks reads i c again outs r' course) :
    Tracks reads i c again outs r course where
  eq := by rw [← driven_rested, h, driven_rested, hr'.eq]
  calm := hr'.calm

/-- A value is yielded, and another leg follows. -/
theorem Tracks.emit {v : Value} {fs : List ResumeFrame} {t next : State} {course : Course Value}
    (ht : t.Calm reads i c) (h : Tracks reads i c again outs (again fs next) course) :
    Tracks reads i c again (next :: outs) (.signal (.yieldValue v fs), t) (course.after [(v, t)]) where
  eq := congrArg (Course.after [(v, t)]) h.eq
  calm := h.calm.after fun y hy => by
    cases List.mem_singleton.mp hy
    exact ht

/-- What raises no `yield` comes first. -/
theorem Tracks.lift {ev : Evaluator} {x : Exec α} {f : α → Exec Value} {g : α → Straight Value}
    {s : State} (hs : s.Calm reads i c) (hx : Quiet reads i c ev x)
    (h : ∀ a t, x ev s = (.value a, t) → t.Calm reads i c →
      Tracks reads i c again outs (f a ev t) (g a t outs)) :
    Tracks reads i c again outs ((x >>= f) ev s) ((Straight.lift ev x >>= g) s outs) := by
  obtain ⟨hyield, ht⟩ := hx s hs
  rw [bind_apply]
  show Tracks reads i c again outs _ (Straight.onValue g (x ev s).1 (x ev s).2 outs)
  generalize x ev s = r at hyield ht h ⊢
  rcases r with ⟨a | k | k, t⟩
  · exact h a t rfl ht
  · exact .give (by cases k <;> first | rfl | cases hyield) ht
  · exact .give rfl ht

/-- A part of a statement comes first. -/
theorem Tracks.passed {frame : Option ResumeFrame}
    {first later : Outcome Value × State → Outcome Value × State} (hfirst : Passes first)
    (hlater : Passes later)
    (hagain : ∀ fs s, rested (again (frame.toList ++ fs) s) = rested (later (passed frame (inner fs s))))
    {r : Outcome Value × State} {course : Course Value} (hinner : Tracks reads i c inner outs r course)
    {f f' : Outcome Value × State → List State → Course Value}
    (hf : ∀ r, r.1.isYield = false → r.2.Calm reads i c →
      Tracks reads i c again outs (first r) (f r outs))
    (hf' : ∀ k r, 0 < k → k ≤ outs.length → r.1.isYield = false → r.2.Calm reads i c →
      Tracks reads i c again (outs.drop k) (later r) (f' r (outs.drop k))) :
    Tracks reads i c again outs (first (passed frame r)) (course.goOn outs f f') := by
  have hlength := length_driven inner outs r
  obtain ⟨heq, hcalm⟩ := hinner
  have hdriven := driven_passed hfirst hlater hagain outs r
  rw [heq] at hlength hdriven
  obtain ⟨ys, ends⟩ := course
  cases ends with
  | none => exact ⟨hdriven, ⟨hcalm.yields, fun _ h => by cases h⟩⟩
  | some r' =>
    obtain ⟨hyield, hstate⟩ := hcalm.ends r' rfl
    cases ys with
    | nil =>
      obtain ⟨heq', hcalm'⟩ := hf r' hyield hstate
      exact ⟨hdriven.trans heq', hcalm'⟩
    | cons y ys =>
      -- the part has waited at least once, so the statement has come back to it
      obtain ⟨heq', hcalm'⟩ := hf' (y :: ys).length r' (Nat.succ_pos _) (hlength rfl) hyield hstate
      refine ⟨hdriven.trans ?_, hcalm'.after hcalm.yields⟩
      exact congrArg (Course.after (y :: ys)) heq'

end

/-! ## Legs of nodes -/

/-- What is no statement and no `yield` is evaluated as it is. -/
theorem Straight.dispatch_plain {e : Node} (h : e.takesFrame = false) (ev : Evaluator)
    (run : Node → Nat → Straight Value) (depth scope : Nat) :
    dispatch ev run depth e scope = lift ev (Exec.dispatch e scope) := by
  cases e <;> first | rfl | cases h

namespace Exec

theorem enterNode_withResume (ev ev' : Evaluator) (s : State) (fs : List ResumeFrame) :
    enterNode ev (s.withResume fs) = ((enterNode ev' s).1, (enterNode ev' s).2.withResume fs) := by
  obtain ⟨heap, sites, held, session⟩ := s
  unfold enterNode State.withResume State.withSession
  dsimp only
  split
  · rfl
  · rcases session.meter.step with ⟨_ | _, m⟩ <;> rfl

/-- A node that cannot be entered ends the body. -/
theorem enterNode_outcome (ev : Evaluator) (s : State) :
    (enterNode ev s).1 = .value () ∨ (enterNode ev s).1.escapes = true := by
  rw [enterNode_apply]
  split
  · exact Or.inr rfl
  · cases hbudget : s.session.meter.budget with
    | none =>
      rw [Meter.step, hbudget]
      exact Or.inl rfl
    | some budget =>
      rw [Meter.step, hbudget]
      dsimp only
      by_cases h : budget < s.session.meter.steps + 1
      · rw [if_pos h]
        exact Or.inr rfl
      · rw [if_neg h]
        exact Or.inl rfl

/-- Entering nodes again neither looks at the way back nor changes it. -/
theorem reenter_withResume (k : Nat) (ev ev' : Evaluator) (s : State) (fs : List ResumeFrame) :
    reenter k ev (s.withResume fs) = ((reenter k ev' s).1, (reenter k ev' s).2.withResume fs) := by
  induction k with
  | zero => rfl
  | succ k ih =>
    rw [reenter, bind_apply, bind_apply, ih]
    rcases reenter k ev' s with ⟨_ | _ | _, t⟩
    · exact enterNode_withResume ev ev' t fs
    · rfl
    · rfl

/-- Nodes that cannot be entered again end the body. -/
theorem reenter_outcome (k : Nat) (ev : Evaluator) (s : State) :
    (reenter k ev s).1 = .value () ∨ (reenter k ev s).1.escapes = true := by
  induction k with
  | zero => exact Or.inl rfl
  | succ k ih =>
    rw [reenter, bind_apply]
    generalize reenter k ev s = r at ih ⊢
    rcases r with ⟨_ | _ | _, t⟩
    · exact enterNode_outcome ev t
    · exact Or.inr (ih.resolve_left nofun)
    · exact Or.inr rfl

end Exec

/-- The legs of a node around which there are a number of nodes of the same body. -/
def leg (n depth : Nat) (e : Node) (scope : Nat) : Leg := fun fs s =>
  (do
    reenter depth
    eval e scope : Exec Value) (evaluator n) (s.withResume fs)

theorem leg_succ (n depth : Nat) (e : Node) (scope : Nat) (fs : List ResumeFrame) (s : State) :
    leg (n + 1) depth e scope fs s =
      (do
        reenter (depth + 1)
        dispatch e scope : Exec Value) (evaluator n) (s.withResume fs) := by
  show (do reenter depth; eval e scope : Exec Value) (evaluator (n + 1)) _ = _
  rw [bind_apply, reenter, bind_assoc, bind_apply, reenter_withResume depth _ (evaluator n),
    reenter_withResume depth _ (evaluator n)]
  rfl

/-- A node that takes frames off its way back goes on as it does with these frames. -/
theorem leg_again (depth : Nat) {n : Nat} {e : Node} {scope : Nat} {way fs : List ResumeFrame}
    {y : Exec Value}
    (hresume : ∀ s : State, dispatch e scope (evaluator n) (s.withResume way) =
      y (evaluator n) (s.withResume fs)) (s : State) :
    rested (leg (n + 1) depth e scope way s) =
      rested ((do
        reenter (depth + 1)
        y : Exec Value) (evaluator n) (s.withResume fs)) := by
  rw [leg_succ, bind_apply, bind_apply, reenter_withResume _ _ (evaluator n),
    reenter_withResume _ _ (evaluator n)]
  have hr := reenter_outcome (depth + 1) (evaluator n) s
  generalize reenter (depth + 1) (evaluator n) s = r at hr ⊢
  rcases r with ⟨_ | k | k, t⟩
  · exact congrArg rested (hresume t)
  · -- a node on the way cannot be entered, and the frames that were not reached are forgotten
    have hescapes : (Outcome.signal k : Outcome Value).escapes = true := by
      have h := hr.resolve_left nofun
      cases k <;> exact h
    show rested (.signal k, t.withResume way) = rested (.signal k, t.withResume fs)
    unfold rested
    rw [if_pos hescapes, if_pos hescapes]
    rfl
  · rfl

/-- A node that takes its frame, if it has one, finds the part that was left, and goes on as it would
have done. -/
theorem leg_frame {n depth : Nat} {e p : Node} {scope inner : Nat} {frame : Option ResumeFrame}
    {later : Outcome Value × State → Outcome Value × State} (hlater : Passes later)
    (hresume : ∀ fs (s : State), dispatch e scope (evaluator n) (s.withResume (frame.toList ++ fs)) =
      later (passed frame (evaluateNode n p inner (s.withResume fs))))
    (fs : List ResumeFrame) (s : State) :
    rested (leg (n + 1) depth e scope (frame.toList ++ fs) s) =
      rested (later (passed frame (leg n (depth + 1) p inner fs s))) := by
  obtain ⟨y, hy⟩ : ∃ y : Exec Value,
      ∀ t, y (evaluator n) t = later (passed frame (evaluateNode n p inner t)) :=
    ⟨fun _ t => later (passed frame (evaluateNode n p inner t)), fun _ => rfl⟩
  refine (leg_again depth (fun t => (hresume fs t).trans (hy _).symm) s).trans (congrArg rested ?_)
  show _ = later (passed frame ((do
    reenter (depth + 1)
    eval p inner : Exec Value) (evaluator n) (s.withResume fs)))
  rw [bind_apply, bind_apply]
  have hr := reenter_outcome (depth + 1) (evaluator n) (s.withResume fs)
  generalize reenter (depth + 1) (evaluator n) (s.withResume fs) = r at hr ⊢
  rcases r with ⟨_ | k | k, t⟩
  · exact hy t
  · have hescapes : (Outcome.signal k : Outcome Value).escapes = true := by
      have h := hr.resolve_left nofun
      cases k <;> exact h
    have hyield : (Outcome.signal k : Outcome Value).isYield = false := by
      cases k <;> first | rfl | cases hescapes
    show (Outcome.signal k, t) = later (passed frame (.signal k, t))
    rw [passed_of_not_yield frame hyield, hlater.of_escapes hescapes]
  · show (Outcome.halted k, t) = later (passed frame (.halted k, t))
    rw [passed_of_not_yield frame rfl, hlater.halted]

end TreeScript
