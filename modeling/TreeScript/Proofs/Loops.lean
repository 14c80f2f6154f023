import TreeScript.Proofs.Endings.Structures
import TreeScript.Proofs.Generators.Stages
import TreeScript.Proofs.Rounds

/-
# Loops leg by leg

A loop that stands in a coroutine is evaluated in legs: a `yield` in its body leaves it, and it is taken up again
later, by whatever evaluator and in whatever state (`Exec.Resumption`).  What it comes to in the end is followed from
one leg to the next.  What the body of a round comes to, the loop makes into the next round, or leaves with
(`Exec.loopLeg`); and a leg that takes up a round again does just this, so that what is left to do after a round does
not depend on how many legs it has had (`Exec.of_concludes_loopLeg`, `Exec.concludes_loopLeg`).
-/

namespace TreeScript

/-! ## Evaluations leg by leg -/

namespace Exec

/-- How an evaluation that a `yield` has left may be taken up again: by which evaluators, in which states. -/
abbrev Resumption := Evaluator → State → Prop

section
variable (later : Resumption) (again : Exec Value)

/-- What an evaluation comes to that is taken up again wherever a `yield` leaves it: the evaluator of its last
leg, how that ends, and the state after it. -/
inductive Concludes : Evaluator → Outcome Value × State → Evaluator → Outcome Value → State → Prop
  | ended {ev : Evaluator} {o : Outcome Value} {t : State} (ho : o.isYield = false) :
      Concludes ev (o, t) ev o t
  | resumed {ev ev' ev'' : Evaluator} {v : Value} {fs : List ResumeFrame} {t out u : State}
      {o : Outcome Value} (hlater : later ev' out)
      (h : Concludes ev' (again ev' (out.withResume fs)) ev'' o u) :
      Concludes ev (.signal (.yieldValue v fs), t) ev'' o u

/-- However an evaluation is taken up again, it ends at last, in a certain way. -/
inductive AlwaysEnds (ends : Evaluator → Outcome Value → State → Prop) :
    Evaluator → Outcome Value × State → Prop
  | ended {ev : Evaluator} {o : Outcome Value} {t : State} (ho : o.isYield = false) (h : ends ev o t) :
      AlwaysEnds ends ev (o, t)
  | resumed {ev : Evaluator} {v : Value} {fs : List ResumeFrame} {t : State}
      (h : ∀ ev' out, later ev' out → AlwaysEnds ends ev' (again ev' (out.withResume fs))) :
      AlwaysEnds ends ev (.signal (.yieldValue v fs), t)

end

section
variable {later : Resumption} {again : Exec Value} {ends ends' : Evaluator → Outcome Value → State → Prop}
variable {ev ev' : Evaluator} {r : Outcome Value × State} {o o' : Outcome Value} {t u : State}

/-- What has ended is not taken up again. -/
theorem concludes_of_ended (ho : o.isYield = false) :
    Concludes later again ev (o, t) ev' o' u ↔ ev = ev' ∧ o' = o ∧ t = u := by
  constructor
  · intro h
    cases h with
    | ended => exact ⟨rfl, rfl, rfl⟩
    | resumed => cases ho
  · rintro ⟨rfl, rfl, rfl⟩
    exact .ended ho

/-- An evaluation is ended by the evaluator that has begun it, or by one that has taken it up again. -/
theorem Concludes.evaluator (h : Concludes later again ev r ev' o t) : ev' = ev ∨ ∃ out, later ev' out := by
  induction h with
  | ended => exact Or.inl rfl
  | @resumed _ ev' _ _ _ _ out _ _ hlater _ ih =>
    rcases ih with rfl | hagain
    · exact Or.inr ⟨out, hlater⟩
    · exact Or.inr hagain

theorem AlwaysEnds.mono (h : AlwaysEnds later again ends ev r) (himp : ∀ ev o t, ends ev o t → ends' ev o t) :
    AlwaysEnds later again ends' ev r := by
  induction h with
  | ended ho h => exact .ended ho (himp _ _ _ h)
  | resumed _ ih => exact .resumed ih

/-- The way in which an evaluation always ends is one that it comes to. -/
theorem AlwaysEnds.concludes (h : AlwaysEnds later again ends ev r) :
    AlwaysEnds later again (fun ev' o t => ends ev' o t ∧ Concludes later again ev r ev' o t) ev r := by
  induction h with
  | ended ho h => exact .ended ho ⟨h, .ended ho⟩
  | resumed _ ih =>
    refine .resumed fun ev' out hlater => ?_
    exact (ih ev' out hlater).mono fun _ _ _ h => ⟨h.1, .resumed hlater h.2⟩

end

end Exec

/-! ## Rounds -/

/-- How the body of a loop ends when the next round is to follow: normally, or by a `continue`. -/
def Outcome.EndsRound (o : Outcome Value) : Prop := (∃ v, o = .value v) ∨ o = .signal .continueLoop

/-- How a loop ends that its body leaves: a `break` gives its value, and all else goes on. -/
def Outcome.leaving : Outcome Value → Outcome Value
  | .signal (.breakLoop v) => .value v
  | o => o

theorem Outcome.isYield_leaving {o : Outcome Value} (hyield : o.isYield = false) : o.leaving.isYield = false := by
  rcases o with _ | (_ | _ | _ | _ | _ | _) | _ <;> first | rfl | exact hyield

/-- A round of a loop begins: it has a scope of its own, in which the variable has a value. -/
def State.roundBegun (s : State) (scope : Nat) (name : String) (ty : TypeKind) (v : Value) : State :=
  s.withHeap ((s.heap.newScope scope).2.declare s.heap.scopes.size name ty v)

/-- There the variable reads as this value. -/
theorem State.read_roundBegun {s : State} {scope : Nat} {name : String} {ty : TypeKind} {v : Value} :
    (s.roundBegun scope name ty v).heap.read s.heap.scopes.size name = v :=
  Heap.read_declare_newScope ty

namespace Exec

/-- What a leg of a loop makes of what the body comes to in it; `rest` are the rounds that follow. -/
def loopLeg (frame : ResumeFrame) (rest : Exec Value) (ev : Evaluator) (r : Outcome Value × State) :
    Outcome Value × State :=
  endRound (afterRound rest) ev (passed (some frame) r)

section
variable {frame : ResumeFrame} {later : Resumption} {again : Exec Value} {ev ev' : Evaluator} {v : Value}
variable {fs : List ResumeFrame} {o o₁ : Outcome Value} {t u : State}

theorem loopLeg_yield (rest : Exec Value) :
    loopLeg frame rest ev (.signal (.yieldValue v fs), t) = (.signal (.yieldValue v (frame :: fs)), t) := rfl

theorem loopLeg_of_endsRound (rest : Exec Value) (ho : o.EndsRound) : loopLeg frame rest ev (o, t) = rest ev t := by
  rcases ho with ⟨v, rfl⟩ | rfl <;> rfl

theorem loopLeg_of_leaving (rest : Exec Value) (hyield : o.isYield = false) (ho : ¬ o.EndsRound) :
    loopLeg frame rest ev (o, t) = (o.leaving, t) := by
  rcases o with v | (_ | _ | _ | _ | _ | _) | _ <;> try rfl
  · exact absurd (Or.inl ⟨v, rfl⟩) ho
  · exact absurd (Or.inr rfl) ho
  · cases hyield

/-- After the last leg of its body, the loop goes on with the rounds that are left, or is left. -/
theorem concludes_loopLeg_ended (rest : Exec Value) (ho : o₁.isYield = false) :
    Concludes later again ev (loopLeg frame rest ev (o₁, t)) ev' o u ↔
      (o₁.EndsRound ∧ Concludes later again ev (rest ev t) ev' o u) ∨
        (¬ o₁.EndsRound ∧ ev = ev' ∧ o = o₁.leaving ∧ t = u) := by
  by_cases hends : o₁.EndsRound
  · rw [loopLeg_of_endsRound rest hends]
    simp only [hends, not_true, true_and, false_and, or_false]
  · rw [loopLeg_of_leaving rest ho hends, concludes_of_ended (Outcome.isYield_leaving ho)]
    simp only [hends, not_false_eq_true, true_and, false_and, false_or]

end

section
variable {frame : ResumeFrame} {body : Node} {inner bound rounds : Nat} {rest : Nat → Exec Value}
variable {later : Resumption} {again : Exec Value} {ev ev₁ ev' : Evaluator} {o o₁ : Outcome Value} {t u : State}
variable {r : Outcome Value × State}

/-- A leg of a loop takes the round up again that the last one has left, in the same scope; the rounds that follow
have as bound what is left of the fuel. -/
def TakesUp (again : Exec Value) (frame : ResumeFrame) (rest : Nat → Exec Value) (body : Node) (inner : Nat) : Prop :=
  ∀ (ev : Evaluator) (bound : Nat), ev.fuel = bound + 1 → ∀ (out : State) (fs : List ResumeFrame),
    again ev (out.withResume (frame :: fs)) = loopLeg frame (rest bound) ev (eval body inner ev (out.withResume fs))

theorem TakesUp.exists_leg (hagain : TakesUp again frame rest body inner) (hfuel : rounds < ev.fuel) (out : State)
    (fs : List ResumeFrame) :
    ∃ bound, rounds ≤ bound ∧
      again ev (out.withResume (frame :: fs)) =
        loopLeg frame (rest bound) ev (eval body inner ev (out.withResume fs)) := by
  obtain ⟨i, hi⟩ := Nat.exists_eq_add_of_lt hfuel
  exact ⟨rounds + i, by omega, hagain ev _ hi out fs⟩

variable (hagain : TakesUp again frame rest body inner) (hlater : ∀ ev out, later ev out → rounds < ev.fuel)
include hagain hlater

/-- **What a loop comes to in a round** is what its body comes to there, or what it comes to after the round. -/
theorem of_concludes_loopLeg (hbound : rounds ≤ bound)
    (h : Concludes later again ev (loopLeg frame (rest bound) ev r) ev' o u) :
    ∃ ev₁ o₁ t, Concludes later (eval body inner) ev r ev₁ o₁ t ∧
      ((o₁.EndsRound ∧ ∃ bound, rounds ≤ bound ∧ Concludes later again ev₁ (rest bound ev₁ t) ev' o u) ∨
        (¬ o₁.EndsRound ∧ ev₁ = ev' ∧ o = o₁.leaving ∧ t = u)) := by
  -- by induction on the legs of the loop: each of them is one of the body, or comes after it
  generalize hq : loopLeg frame (rest bound) ev r = q at h
  induction h generalizing bound r with
  | @ended ev o u hended =>
    obtain ⟨o₁, t⟩ := r
    cases ho : o₁.isYield with
    | false =>
      have hended' : Concludes later again ev (o, u) ev o u := .ended hended
      rw [← hq, concludes_loopLeg_ended (rest bound) ho] at hended'
      exact ⟨ev, o₁, t, .ended ho, hended'.imp_left fun h => ⟨h.1, bound, hbound, h.2⟩⟩
    | true =>
      rcases o₁ with _ | (_ | _ | _ | _ | _ | _) | _ <;> cases ho
      cases hq
      cases hended
  | @resumed ev ev₁ ev₂ v fs t out u o hout h ih =>
    obtain ⟨o₁, t₁⟩ := r
    cases ho : o₁.isYield with
    | false =>
      have hresumed : Concludes later again ev (.signal (.yieldValue v fs), t) ev₂ o u := .resumed hout h
      rw [← hq, concludes_loopLeg_ended (rest bound) ho] at hresumed
      exact ⟨ev, o₁, t₁, .ended ho, hresumed.imp_left fun h => ⟨h.1, bound, hbound, h.2⟩⟩
    | true =>
      rcases o₁ with _ | (_ | _ | _ | ⟨w, gs⟩ | _ | _) | _ <;> cases ho
      cases hq
      obtain ⟨bound, hbound, hleg⟩ := hagain.exists_leg (hlater ev₁ out hout) out gs
      obtain ⟨ev₃, o₃, t₃, hbody, hafter⟩ := ih hbound hleg.symm
      exact ⟨ev₃, o₃, t₃, .resumed hout hbody, hafter⟩

theorem concludes_loopLeg (hbound : rounds ≤ bound) (h : Concludes later (eval body inner) ev r ev₁ o₁ t)
    (hafter : (o₁.EndsRound ∧ ∀ bound, rounds ≤ bound → Concludes later again ev₁ (rest bound ev₁ t) ev' o u) ∨
      (¬ o₁.EndsRound ∧ ev₁ = ev' ∧ o = o₁.leaving ∧ t = u)) :
    Concludes later again ev (loopLeg frame (rest bound) ev r) ev' o u := by
  -- by induction on the legs of the body
  induction h generalizing bound with
  | ended ho =>
    rw [concludes_loopLeg_ended (rest bound) ho]
    exact hafter.imp_left fun h => ⟨h.1, h.2 bound hbound⟩
  | @resumed ev ev₁ ev₂ v fs t out t' o₁ hout _ ih =>
    rw [loopLeg_yield]
    obtain ⟨bound, hbound, hleg⟩ := hagain.exists_leg (hlater ev₁ out hout) out fs
    refine .resumed hout ?_
    rw [hleg]
    exact ih hbound hafter

/-- A loop ends if the body of a round does, and the rounds after it. -/
theorem alwaysEnds_loopLeg {P : Evaluator → State → Prop} {ends : Evaluator → Outcome Value → State → Prop}
    (hrest : ∀ bound ev t, rounds ≤ bound → P ev t → AlwaysEnds later again ends ev (rest bound ev t))
    (hbound : rounds ≤ bound) (h : AlwaysEnds later (eval body inner) (fun ev o t => o.EndsRound ∧ P ev t) ev r) :
    AlwaysEnds later again ends ev (loopLeg frame (rest bound) ev r) := by
  induction h generalizing bound with
  | @ended ev o t ho h =>
    rw [loopLeg_of_endsRound (rest bound) h.1]
    exact hrest bound ev t hbound h.2
  | @resumed ev v fs t _ ih =>
    rw [loopLeg_yield]
    refine .resumed fun ev₁ out hout => ?_
    obtain ⟨bound, hbound, hleg⟩ := hagain.exists_leg (hlater ev₁ out hout) out fs
    rw [hleg]
    exact ih ev₁ out hout hbound

end

end Exec

/-! ## Bare yields -/

section
variable {n c : Nat} {s : State}

/-- A bare `yield` suspends the evaluation when it is come to, -/
theorem evaluateNode_yield (hs : s.Affords 1) (hcalm : s.session.resume = []) :
    ∃ t, evaluateNode (n + 1) (.yieldWith none) c s = (.signal (.yieldValue .null [.atYield]), t) := by
  obtain ⟨m, hentered, _⟩ := enterNode_affords hs
  rw [evaluateNode_of_enterNode hentered]
  show ∃ t, Exec.evalYield none c (evaluator n) (s.withMeter m) = _
  rw [Exec.evalYield, Exec.nextFrame_bind (s := s.withMeter m) hcalm]
  exact ⟨_, rfl⟩

/-- and gives null when it is taken up again. -/
theorem evaluateNode_yield_resumed (hs : s.Affords 2) :
    ∃ t, evaluateNode (n + 1) (.yieldWith none) c (s.withResume [.atYield]) = (.value .null, t) ∧
      t.Affords 1 ∧ t.session.resume = [] := by
  obtain ⟨m, hentered, hleft⟩ :=
    enterNode_affords (s := s.withResume [.atYield]) (n := 1) ⟨hs.unmarked, hs.budget⟩
  rw [evaluateNode_of_enterNode hentered]
  exact ⟨_, rfl, ⟨hleft.unmarked, hleft.budget⟩, rfl⟩

/-- The body of a round that is a bare `yield` ends, if all states in which it is taken up again allow two more
nodes. -/
theorem alwaysEnds_yield {later : Exec.Resumption} {P : Evaluator → State → Prop}
    (hlater : ∀ ev out, later ev out → ev = evaluator (n + 1) ∧ out.Affords 2) (hs : s.Affords 1)
    (hcalm : s.session.resume = [])
    (hP : ∀ t : State, t.Affords 1 → t.session.resume = [] → P (evaluator (n + 1)) t) :
    Exec.AlwaysEnds later (Exec.eval (.yieldWith none) c) (fun ev o t => o.EndsRound ∧ P ev t) (evaluator (n + 1))
      (Exec.eval (.yieldWith none) c (evaluator (n + 1)) s) := by
  obtain ⟨u, hleft⟩ := evaluateNode_yield (n := n) (c := c) hs hcalm
  show Exec.AlwaysEnds later _ _ _ (evaluateNode (n + 1) (.yieldWith none) c s)
  rw [hleft]
  refine .resumed fun ev' out hagain => ?_
  obtain ⟨rfl, hout⟩ := hlater ev' out hagain
  obtain ⟨t, hended, ht, hcalm⟩ := evaluateNode_yield_resumed (n := n) (c := c) hout
  show Exec.AlwaysEnds later _ _ _ (evaluateNode (n + 1) (.yieldWith none) c _)
  rw [hended]
  exact .ended rfl ⟨Or.inl ⟨_, rfl⟩, hP t ht hcalm⟩

end

end TreeScript
