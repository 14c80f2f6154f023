import TreeScript.Proofs.Coroutines.LifeCycle
import TreeScript.Proofs.Loops

/-
# Loops over items

A loop over a list, array, map or string walks through what was there when it started, whatever has become of the
container since; a loop over a coroutine has the coroutine give the next value.  Either way there is a round for each
item that the loop draws (`Exec.Visits`), in a scope of its own, and the body is taken up again in this scope wherever
a `yield` leaves it.  Nothing is drawn while a round is under way or waits to be taken up again, so that no item is
lost or comes twice (`foreach_visits_once`).  Where nothing else resumes the coroutine, the items are what successive
resumes of it give (`Exec.Successive`).
-/

namespace TreeScript

/-- What a loop over a value walks through: what is there when it starts. -/
def Heap.snapshot (h : Heap) : Value → Option (List Value)
  | .list i | .array i => some (h.sequence i).toList
  | .map i => some (h.mapAt i).keys
  | .str x => some ((Units.ofString x).map .char)
  | _ => none

namespace Exec

/-! ## Rounds -/

/-- A round of a loop over items: the item, and the states in which the round begins and in which its body ends. -/
structure Visit where
  item : Value
  begun : State
  ended : State

section
variable (later : Resumption) (name : String) (body : Node) (scope : Nat)

/-- What the body comes to in the round with an item. -/
def VisitConcludes (v : Value) (ev : Evaluator) (s : State) : Evaluator → Outcome Value → State → Prop :=
  Concludes later (eval body s.heap.scopes.size) ev
    (eval body s.heap.scopes.size ev (s.roundBegun scope name .any v))

/-- Some rounds, one after the other, with the items that are drawn from a source; and what is left of it. -/
inductive Visits : EachSource → List Visit → Evaluator → State → EachSource → Evaluator → State → Prop
  | done {source : EachSource} {ev : Evaluator} {s : State} : Visits source [] ev s source ev s
  | round {source rest last : EachSource} {v : Value} {visits : List Visit} {ev ev₁ ev₂ : Evaluator}
      {s s' t u : State} {o : Outcome Value} (hdraw : nextItem source ev s = (.value (some (v, rest)), s'))
      (h : VisitConcludes later name body scope v ev s' ev₁ o t) (ho : o.EndsRound)
      (hrest : Visits rest visits ev₁ t last ev₂ u) : Visits source (⟨v, s', t⟩ :: visits) ev s last ev₂ u

/-- How a loop ends after some rounds: there is no item any more, the next one cannot be drawn, or the body of its
round leaves the loop. -/
inductive VisitsEnd (source : EachSource) (ev : Evaluator) (s : State) : Evaluator → Outcome Value → State → Prop
  | exhausted {u : State} (h : nextItem source ev s = (.value none, u)) : VisitsEnd source ev s ev (.value .null) u
  | raised {g : Signal} {u : State} (h : nextItem source ev s = (.signal g, u))
      (hg : (Outcome.signal g : Outcome Value).isYield = false) : VisitsEnd source ev s ev (.signal g) u
  | halted {k : Halt} {u : State} (h : nextItem source ev s = (.halted k, u)) : VisitsEnd source ev s ev (.halted k) u
  | left {rest : EachSource} {v : Value} {ev' : Evaluator} {s' u : State} {o : Outcome Value}
      (hdraw : nextItem source ev s = (.value (some (v, rest)), s'))
      (h : VisitConcludes later name body scope v ev s' ev' o u) (ho : ¬ o.EndsRound) :
      VisitsEnd source ev s ev' o.leaving u

/-- There are no more than a number of rounds: the items can be drawn, and in each of the rounds the body ends in the
end, and the next round is to follow. -/
def AllVisitsEnd : Nat → EachSource → Evaluator → State → Prop
  | 0, source, ev, s => ∃ t, nextItem source ev s = (.value none, t)
  | rounds + 1, source, ev, s =>
    (∃ t, nextItem source ev s = (.value none, t)) ∨
      ∃ v rest s', nextItem source ev s = (.value (some (v, rest)), s') ∧
        AlwaysEnds later (eval body s'.heap.scopes.size)
          (fun ev₁ o t => o.EndsRound ∧ AllVisitsEnd rounds rest ev₁ t) ev
          (eval body s'.heap.scopes.size ev (s'.roundBegun scope name .any v))

end

/-- Values that successive resumes of a coroutine give: each begins with the coroutine as the last one has left it,
and not finished. -/
inductive Successive (i : Nat) : Coroutine → List Value → Coroutine → Prop
  | done {c : Coroutine} : Successive i c [] c
  | resumed {c c' : Coroutine} {v : Value} {vs : List Value} {n : Nat} {s t : State} (hopen : c.isFinished = false)
      (hs : s.heap.coroutine i = c) (hv : (resumeCoroutine i).run n s = (.value v, t))
      (hrest : Successive i (t.heap.coroutine i) vs c') : Successive i c (v :: vs) c'

/-! ## Drawing an item -/

section
variable {source rest : EachSource} {v : Value} {i n : Nat} {ev : Evaluator} {s t : State}

theorem nextItem_items_nil : nextItem (.items []) ev s = (.value none, s) := rfl

theorem nextItem_items_cons (v : Value) (items : List Value) :
    nextItem (.items (v :: items)) ev s = (.value (some (v, .items items)), s) := rfl

theorem nextItem_finished (h : (s.heap.coroutine i).isFinished = true) :
    nextItem (.coroutine i) ev s = (.value none, s) := by
  show (if (s.heap.coroutine i).isFinished = true then pure none else _ : Exec _) ev s = _
  rw [if_pos h]
  rfl

theorem nextItem_open (h : (s.heap.coroutine i).isFinished = false) :
    nextItem (.coroutine i) ev s =
      (resumeCoroutine i >>= fun v => pure (some (v, .coroutine i)) : Exec (Option (Value × EachSource))) ev s := by
  show (if (s.heap.coroutine i).isFinished = true then pure none else _ : Exec _) ev s = _
  rw [if_neg (by rw [h]; exact Bool.false_ne_true)]

/-- When there is no item any more, nothing is done to find this out. -/
theorem of_nextItem_none (h : nextItem source ev s = (.value none, t)) :
    t = s ∧ ∀ i, source = .coroutine i → (s.heap.coroutine i).isFinished = true := by
  cases source with
  | items items =>
    cases items with
    | nil =>
      cases h
      exact ⟨rfl, nofun⟩
    | cons v items => cases h
  | coroutine i =>
    cases hfinished : (s.heap.coroutine i).isFinished with
    | true =>
      rw [nextItem_finished hfinished] at h
      cases h
      exact ⟨rfl, fun j hj => by cases hj; exact hfinished⟩
    | false =>
      rw [nextItem_open hfinished, bind_apply] at h
      rcases hresume : resumeCoroutine i ev s with ⟨v | g | k, u⟩ <;> rw [hresume] at h <;> cases h

theorem of_nextItem_coroutine (h : nextItem (.coroutine i) ev s = (.value (some (v, rest)), t)) :
    (s.heap.coroutine i).isFinished = false ∧ resumeCoroutine i ev s = (.value v, t) ∧ rest = .coroutine i := by
  cases hfinished : (s.heap.coroutine i).isFinished with
  | true =>
    rw [nextItem_finished hfinished] at h
    cases h
  | false =>
    rw [nextItem_open hfinished, bind_apply] at h
    rcases hresume : resumeCoroutine i ev s with ⟨w | g | k, u⟩ <;> rw [hresume] at h <;> cases h
    exact ⟨rfl, rfl, rfl⟩

theorem isYield_onErrors {α : Type} (f : EvalError → EvalError) (o : Outcome α) :
    (onErrors f o).isYield = o.isYield := by
  rcases o with _ | (_ | _ | _ | _ | _ | _) | _ <;> rfl

/-- No `yield` leaves a coroutine that is resumed. -/
theorem isYield_resumeCoroutine (n i : Nat) (s : State) : ((resumeCoroutine i).run n s).1.isYield = false := by
  cases hpush : s.session.calls.push (s.heap.coroutine i).name with
  | error e =>
    rw [run, resumeCoroutine_refused (evaluator n) hpush]
    rfl
  | ok calls =>
    rcases hbegin : (s.heap.coroutine i).begin? with e | _ | ⟨frames, running⟩
    · rw [run, resumeCoroutine_failed hpush (evaluator n) hbegin]
      rfl
    · rw [run, resumeCoroutine_done hpush (evaluator n) hbegin]
      rfl
    · rw [run, evaluator, resumeCoroutine_begun hpush n (evaluateNode n) hbegin]
      generalize evaluateNode n _ _ _ = r
      rcases r with ⟨_ | (_ | _ | _ | _ | _ | _) | _, u⟩ <;> rfl

/-- No `yield` leaves a loop that draws an item. -/
theorem isYield_nextItem (source : EachSource) (n : Nat) (s : State) :
    (nextItem source (evaluator n) s).1.isYield = false := by
  cases source with
  | items items => cases items <;> rfl
  | coroutine i =>
    cases hfinished : (s.heap.coroutine i).isFinished with
    | true =>
      rw [nextItem_finished hfinished]
      rfl
    | false =>
      have hyield := isYield_resumeCoroutine n i s
      rw [Exec.run] at hyield
      rw [nextItem_open hfinished, bind_apply]
      generalize resumeCoroutine i (evaluator n) s = r at hyield
      rcases r with ⟨_ | (_ | _ | _ | _ | _ | _) | _, u⟩ <;> first | rfl | cases hyield

end

/-! ## Legs of a loop over items -/

section
variable {name : String} {iterable body : Node} {scope inner bound : Nat} {source rest : EachSource} {v : Value}
variable {ev : Evaluator} {s s' : State}

/-- A leg takes the round up again that the last one has left, in the same scope and with the same items to come. -/
theorem takesUp_evalEach :
    TakesUp (evalEach name iterable body scope) (.inEach inner source)
      (fun bound => eachRounds name body scope bound source none) body inner := by
  intro ev bound hfuel out fs
  show eachRounds name body scope ev.fuel source (some inner) ev (out.withResume fs) = _
  rw [hfuel, eachRounds_resumed, runRound_bind_eq]
  rfl

/-- A round begins with the item that is drawn. -/
theorem eachRounds_round (hdraw : nextItem source ev s = (.value (some (v, rest)), s')) :
    eachRounds name body scope (bound + 1) source none ev s =
      loopLeg (.inEach s'.heap.scopes.size rest) (eachRounds name body scope bound rest none) ev
        (eval body s'.heap.scopes.size ev (s'.roundBegun scope name .any v)) := by
  rw [eachRounds_begin, bind_apply, hdraw]
  show eachRounds name body scope (bound + 1) rest (some s'.heap.scopes.size) ev (s'.roundBegun scope name .any v) = _
  rw [eachRounds_resumed, runRound_bind_eq]
  rfl

end

/-! ## Runs -/

section
variable {later : Resumption} {name : String} {iterable body : Node} {scope bound rounds : Nat}
variable {source last : EachSource} {ev ev₁ ev' : Evaluator} {s t u : State} {o : Outcome Value}
variable {visits : List Visit}

/-- What has fuel for some rounds has it for fewer. -/
theorem Resumption.fuel_mono (hle : rounds ≤ bound)
    (hlater : ∀ ev out, later ev out → ∃ n, bound < n ∧ ev = evaluator n) :
    ∀ ev out, later ev out → ∃ n, rounds < n ∧ ev = evaluator n := by
  intro ev out hout
  obtain ⟨n, hn, rfl⟩ := hlater ev out hout
  exact ⟨n, Nat.lt_of_le_of_lt hle hn, rfl⟩

theorem Resumption.lt_fuel (hlater : ∀ ev out, later ev out → ∃ n, rounds < n ∧ ev = evaluator n) :
    ∀ ev out, later ev out → rounds < ev.fuel := by
  intro ev out hout
  obtain ⟨n, hn, rfl⟩ := hlater ev out hout
  exact hn

/-- A loop over items ends, or draws an item and comes to what it comes to after its round. -/
theorem of_concludes_round (hyield : (nextItem source ev s).1.isYield = false)
    (hlater : ∀ ev out, later ev out → rounds < ev.fuel) (hbound : rounds ≤ bound)
    (h : Concludes later (evalEach name iterable body scope) ev
      (eachRounds name body scope (bound + 1) source none ev s) ev' o u) :
    VisitsEnd later name body scope source ev s ev' o u ∨
    ∃ v rest s' ev₁ o₁ t, nextItem source ev s = (.value (some (v, rest)), s') ∧
      VisitConcludes later name body scope v ev s' ev₁ o₁ t ∧ o₁.EndsRound ∧
      ∃ bound, rounds ≤ bound ∧
        Concludes later (evalEach name iterable body scope) ev₁ (eachRounds name body scope bound rest none ev₁ t)
          ev' o u := by
  rcases hdraw : nextItem source ev s with ⟨(_ | ⟨v, rest⟩) | g | k, s'⟩
  · rw [eachRounds_begin, bind_apply, hdraw] at h
    obtain ⟨rfl, rfl, rfl⟩ := (concludes_of_ended rfl).mp h
    exact Or.inl (.exhausted hdraw)
  · rw [eachRounds_round hdraw] at h
    obtain ⟨ev₁, o₁, t, hround, ⟨ho, bound, hbound, hrest⟩ | ⟨ho, rfl, rfl, rfl⟩⟩ :=
      of_concludes_loopLeg takesUp_evalEach hlater hbound h
    · exact Or.inr ⟨v, rest, s', ev₁, o₁, t, rfl, hround, ho, bound, hbound, hrest⟩
    · exact Or.inl (.left hdraw hround ho)
  · have hg : (Outcome.signal g : Outcome Value).isYield = false := by
      rw [hdraw] at hyield
      cases g <;> first | rfl | cases hyield
    rw [eachRounds_begin, bind_apply, hdraw] at h
    obtain ⟨rfl, rfl, rfl⟩ := (concludes_of_ended hg).mp h
    exact Or.inl (.raised hdraw hg)
  · rw [eachRounds_begin, bind_apply, hdraw] at h
    obtain ⟨rfl, rfl, rfl⟩ := (concludes_of_ended rfl).mp h
    exact Or.inl (.halted hdraw)

/-- **What a loop over items comes to** it comes to after some rounds, unless it has more of them than the fuel is
sure to allow. -/
theorem of_concludes_eachRounds (hev : ∃ n, rounds < n ∧ ev = evaluator n)
    (hlater : ∀ ev out, later ev out → ∃ n, rounds < n ∧ ev = evaluator n) (hbound : rounds < bound)
    (h : Concludes later (evalEach name iterable body scope) ev
      (eachRounds name body scope bound source none ev s) ev' o u) :
    (∃ visits last ev₁ t, Visits later name body scope source visits ev s last ev₁ t ∧
      VisitsEnd later name body scope last ev₁ t ev' o u) ∨
    ∃ visits last ev₁ t, rounds < visits.length ∧
      Visits later name body scope source visits ev s last ev₁ t := by
  obtain ⟨bound, rfl⟩ := Nat.exists_eq_succ_of_ne_zero (Nat.ne_zero_of_lt hbound)
  -- by induction on the number of rounds that the fuel is sure to allow: those of a coroutine may go on for ever
  induction rounds generalizing bound source ev s with
  | zero =>
    obtain ⟨n, _, rfl⟩ := hev
    rcases of_concludes_round (isYield_nextItem source n s) (Resumption.lt_fuel hlater) (Nat.zero_le bound) h with
      hend | ⟨v, rest, s', ev₁, o₁, t, hdraw, hround, ho, _⟩
    · exact Or.inl ⟨[], source, evaluator n, s, .done, hend⟩
    · exact Or.inr ⟨[⟨v, s', t⟩], rest, ev₁, t, Nat.one_pos, .round hdraw hround ho .done⟩
  | succ rounds ih =>
    obtain ⟨n, hn, rfl⟩ := hev
    have hfuel : ∀ ev out, later ev out → rounds + 1 < ev.fuel := Resumption.lt_fuel hlater
    have hlater' : ∀ ev out, later ev out → ∃ n, rounds < n ∧ ev = evaluator n :=
      Resumption.fuel_mono (Nat.le_succ rounds) hlater
    rcases of_concludes_round (isYield_nextItem source n s) hfuel (Nat.le_of_lt_succ hbound) h with
      hend | ⟨v, rest, s', ev₁, o₁, t, hdraw, hround, ho, bound, hbound, hrest⟩
    · exact Or.inl ⟨[], source, evaluator n, s, .done, hend⟩
    · have hev₁ : ∃ n, rounds < n ∧ ev₁ = evaluator n := by
        rcases hround.evaluator with rfl | ⟨out, hout⟩
        · exact ⟨n, Nat.lt_of_succ_lt hn, rfl⟩
        · exact hlater' ev₁ out hout
      obtain ⟨bound, rfl⟩ := Nat.exists_eq_succ_of_ne_zero (Nat.ne_zero_of_lt hbound)
      rcases ih hev₁ hlater' bound hbound hrest with
        ⟨visits, last, ev₂, t₂, hvisits, hend⟩ | ⟨visits, last, ev₂, t₂, hmany, hvisits⟩
      · exact Or.inl ⟨⟨v, s', t⟩ :: visits, last, ev₂, t₂, .round hdraw hround ho hvisits, hend⟩
      · exact Or.inr ⟨⟨v, s', t⟩ :: visits, last, ev₂, t₂, Nat.succ_lt_succ hmany, .round hdraw hround ho hvisits⟩

theorem concludes_eachRounds (h : Visits later name body scope source visits ev s last ev₁ t)
    (hend : VisitsEnd later name body scope last ev₁ t ev' o u) (hbound : visits.length < bound)
    (hlater : ∀ ev out, later ev out → visits.length < ev.fuel) :
    Concludes later (evalEach name iterable body scope) ev
      (eachRounds name body scope bound source none ev s) ev' o u := by
  obtain ⟨bound, rfl⟩ := Nat.exists_eq_succ_of_ne_zero (Nat.ne_zero_of_lt hbound)
  -- by induction on the rounds; in what way the loop ends is looked at when there are none left
  induction h generalizing bound with
  | done =>
    cases hend with
    | exhausted h =>
      rw [eachRounds_begin, bind_apply, h]
      exact .ended rfl
    | raised h hg =>
      rw [eachRounds_begin, bind_apply, h]
      exact .ended hg
    | halted h =>
      rw [eachRounds_begin, bind_apply, h]
      exact .ended rfl
    | left hdraw h ho =>
      have hfuel : ∀ ev out, later ev out → 0 < ev.fuel := hlater
      rw [eachRounds_round hdraw]
      exact concludes_loopLeg takesUp_evalEach hfuel (Nat.zero_le bound) h (Or.inr ⟨ho, rfl, rfl, rfl⟩)
  | round hdraw h ho _ ih =>
    rw [eachRounds_round hdraw]
    refine concludes_loopLeg takesUp_evalEach hlater (Nat.le_of_lt_succ hbound) h (Or.inl ⟨ho, fun bound hbound => ?_⟩)
    obtain ⟨bound, rfl⟩ := Nat.exists_eq_succ_of_ne_zero (Nat.ne_zero_of_lt hbound)
    exact ih hend (fun ev out hout => Nat.lt_of_succ_lt (hlater ev out hout)) bound hbound

/-- However the rounds of a loop are taken up again, it ends if they do, when there is no item any more. -/
theorem alwaysEnds_eachRounds (hlater : ∀ ev out, later ev out → rounds < ev.fuel) (hbound : rounds < bound)
    (hends : AllVisitsEnd later name body scope rounds source ev s) :
    AlwaysEnds later (evalEach name iterable body scope)
      (fun ev' o u => o = .value .null ∧ ∃ visits last, Visits later name body scope source visits ev s last ev' u ∧
        nextItem last ev' u = (.value none, u)) ev
      (eachRounds name body scope bound source none ev s) := by
  obtain ⟨bound, rfl⟩ := Nat.exists_eq_succ_of_ne_zero (Nat.ne_zero_of_lt hbound)
  have hover : ∀ {bound source ev s t}, nextItem source ev s = (.value none, t) →
      AlwaysEnds later (evalEach name iterable body scope)
        (fun ev' o u => o = .value .null ∧ ∃ visits last,
          Visits later name body scope source visits ev s last ev' u ∧ nextItem last ev' u = (.value none, u)) ev
        (eachRounds name body scope (bound + 1) source none ev s) := by
    intro bound source ev s t h
    obtain ⟨rfl, -⟩ := of_nextItem_none h
    rw [eachRounds_begin, bind_apply, h]
    exact .ended rfl ⟨rfl, [], source, .done, h⟩
  induction rounds generalizing bound source ev s with
  | zero =>
    obtain ⟨t, h⟩ := hends
    exact hover h
  | succ rounds ih =>
    rcases hends with ⟨t, h⟩ | ⟨v, rest, s', hdraw, hends⟩
    · exact hover h
    · rw [eachRounds_round hdraw]
      -- how the round has been come through to its end is part of the run of the loop
      refine alwaysEnds_loopLeg takesUp_evalEach hlater
        (P := fun ev₁ t => ∃ o, VisitConcludes later name body scope v ev s' ev₁ o t ∧ o.EndsRound ∧
          AllVisitsEnd later name body scope rounds rest ev₁ t) ?_ (Nat.le_of_lt_succ hbound)
        (hends.concludes.mono fun ev₁ o t h => ⟨h.1.1, o, h.2, h.1.1, h.1.2⟩)
      rintro bound ev₁ t hbound ⟨o, hround, ho, hends⟩
      obtain ⟨bound, rfl⟩ := Nat.exists_eq_succ_of_ne_zero (Nat.ne_zero_of_lt hbound)
      refine (ih (fun ev out hout => Nat.lt_of_succ_lt (hlater ev out hout)) hends bound hbound).mono ?_
      rintro ev' o u ⟨rfl, visits, last, hvisits, hover⟩
      exact ⟨rfl, ⟨v, s', t⟩ :: visits, last, .round hdraw hround ho hvisits, hover⟩

end

/-! ## What is visited -/

section
variable {later : Resumption} {name : String} {iterable body : Node} {scope bound i n : Nat}
variable {source last : EachSource} {items rest : List Value} {ev ev₁ ev' : Evaluator} {s t u : State}
variable {o : Outcome Value} {v : Value}
variable {visits : List Visit}

/-- The rounds of a loop have the items of the snapshot, in their order; those that are left come after them. -/
theorem of_visits_items (h : Visits later name body scope (.items items) visits ev s last ev₁ t) :
    ∃ rest, last = .items rest ∧ items = visits.map Visit.item ++ rest := by
  generalize hsource : EachSource.items items = source at h
  induction h generalizing items with
  | done => exact ⟨items, hsource.symm, rfl⟩
  | round hdraw _ _ _ ih =>
    subst hsource
    cases items with
    | nil => cases hdraw
    | cons x items =>
      cases hdraw
      obtain ⟨rest, hlast, hitems⟩ := ih rfl
      exact ⟨rest, hlast, congrArg (_ :: ·) hitems⟩

/-- A loop over a snapshot ends after its last item, or is left in the round with the next one. -/
theorem visitsEnd_items :
    VisitsEnd later name body scope (.items rest) ev₁ t ev' o u ↔
      (rest = [] ∧ ev₁ = ev' ∧ o = .value .null ∧ t = u) ∨
      ∃ x rest' o', rest = x :: rest' ∧ VisitConcludes later name body scope x ev₁ t ev' o' u ∧
        ¬ o'.EndsRound ∧ o = o'.leaving := by
  constructor
  · intro h
    cases rest with
    | nil =>
      cases h with
      | exhausted h =>
        cases h
        exact Or.inl ⟨rfl, rfl, rfl, rfl⟩
      | raised h | halted h | left h => cases h
    | cons x rest =>
      cases h with
      | exhausted h | raised h | halted h => cases h
      | left hdraw h ho =>
        cases hdraw
        exact Or.inr ⟨x, rest, _, rfl, h, ho, rfl⟩
  · rintro (⟨rfl, rfl, rfl, rfl⟩ | ⟨x, rest', o', rfl, h, ho, rfl⟩)
    · exact .exhausted nextItem_items_nil
    · exact .left (nextItem_items_cons x rest') h ho

/-- A loop over a snapshot comes to its end after the rounds with all of its items, unless one of them leaves it. -/
theorem concludes_eachRounds_items (hev : ∃ n, items.length < n ∧ ev = evaluator n)
    (hlater : ∀ ev out, later ev out → ∃ n, items.length < n ∧ ev = evaluator n) (hbound : items.length < bound) :
    Concludes later (evalEach name iterable body scope) ev
        (eachRounds name body scope bound (.items items) none ev s) ev' o u ↔
      (o = .value .null ∧ ∃ visits, visits.map Visit.item = items ∧
        Visits later name body scope (.items items) visits ev s (.items []) ev' u) ∨
      ∃ visits x rest ev₁ t o', items = visits.map Visit.item ++ x :: rest ∧
        Visits later name body scope (.items items) visits ev s (.items (x :: rest)) ev₁ t ∧
        VisitConcludes later name body scope x ev₁ t ev' o' u ∧ ¬ o'.EndsRound ∧ o = o'.leaving := by
  have hshort : ∀ visits last ev₁ t, Visits later name body scope (.items items) visits ev s last ev₁ t →
      visits.length ≤ items.length := by
    intro visits last ev₁ t h
    obtain ⟨rest, -, rfl⟩ := of_visits_items h
    rw [List.length_append, List.length_map]
    exact Nat.le_add_right _ _
  constructor
  · intro h
    rcases of_concludes_eachRounds hev hlater hbound h with
      ⟨visits, last, ev₁, t, hvisits, hend⟩ | ⟨visits, last, ev₁, t, hmany, hvisits⟩
    · obtain ⟨rest, rfl, hitems⟩ := of_visits_items hvisits
      rcases visitsEnd_items.mp hend with ⟨rfl, rfl, rfl, rfl⟩ | ⟨x, rest, o', rfl, hround, ho, rfl⟩
      · exact Or.inl ⟨rfl, visits, by rw [hitems, List.append_nil], hvisits⟩
      · exact Or.inr ⟨visits, x, rest, ev₁, t, o', hitems, hvisits, hround, ho, rfl⟩
    · exact absurd hmany (Nat.not_lt.mpr (hshort visits last ev₁ t hvisits))
  · intro h
    have hrun : ∃ visits last ev₁ t, Visits later name body scope (.items items) visits ev s last ev₁ t ∧
        VisitsEnd later name body scope last ev₁ t ev' o u := by
      rcases h with ⟨rfl, visits, -, hvisits⟩ | ⟨visits, x, rest, ev₁, t, o', -, hvisits, hround, ho, rfl⟩
      · exact ⟨visits, .items [], ev', u, hvisits, visitsEnd_items.mpr (Or.inl ⟨rfl, rfl, rfl, rfl⟩)⟩
      · exact ⟨visits, .items (x :: rest), ev₁, t, hvisits,
          visitsEnd_items.mpr (Or.inr ⟨x, rest, o', rfl, hround, ho, rfl⟩)⟩
    obtain ⟨visits, last, ev₁, t, hvisits, hend⟩ := hrun
    have hle := hshort visits last ev₁ t hvisits
    exact concludes_eachRounds hvisits hend (Nat.lt_of_le_of_lt hle hbound)
      (Resumption.lt_fuel (Resumption.fuel_mono hle hlater))

theorem alwaysEnds_eachRounds_items (hlater : ∀ ev out, later ev out → ∃ n, items.length < n ∧ ev = evaluator n)
    (hbound : items.length < bound)
    (hends : AllVisitsEnd later name body scope items.length (.items items) ev s) :
    AlwaysEnds later (evalEach name iterable body scope)
      (fun ev' o u => o = .value .null ∧ ∃ visits, visits.map Visit.item = items ∧
        Visits later name body scope (.items items) visits ev s (.items []) ev' u) ev
      (eachRounds name body scope bound (.items items) none ev s) := by
  refine (alwaysEnds_eachRounds (Resumption.lt_fuel hlater) hbound hends).mono ?_
  rintro ev' o u ⟨rfl, visits, last, hvisits, hover⟩
  obtain ⟨rest, rfl, hitems⟩ := of_visits_items hvisits
  cases rest with
  | nil => exact ⟨rfl, visits, by rw [hitems, List.append_nil], hvisits⟩
  | cons x rest => cases hover

/-- A loop over a coroutine goes on with the coroutine. -/
theorem of_visits_coroutine (h : Visits later name body scope (.coroutine i) visits ev s last ev₁ t) :
    last = .coroutine i := by
  generalize hsource : EachSource.coroutine i = source at h
  induction h with
  | done => rfl
  | round hdraw _ _ _ ih =>
    subst hsource
    obtain ⟨-, -, rfl⟩ := of_nextItem_coroutine hdraw
    exact ih rfl

/-- Where the coroutine is left alone while the rounds are under way, they have what successive resumes give. -/
theorem successive_of_visits (hev : ∃ n, ev = evaluator n)
    (hlater : ∀ ev out, later ev out → ∃ n, ev = evaluator n)
    (h : Visits later name body scope (.coroutine i) visits ev s last ev₁ t)
    (halone : ∀ w ∈ visits, w.ended.heap.coroutine i = w.begun.heap.coroutine i) :
    Successive i (s.heap.coroutine i) (visits.map Visit.item) (t.heap.coroutine i) := by
  generalize hsource : EachSource.coroutine i = source at h
  induction h with
  | done => exact .done
  | @round _ _ _ v visits ev ev₁ _ s s' t u o hdraw hround ho _ ih =>
    subst hsource
    obtain ⟨hopen, hresume, rfl⟩ := of_nextItem_coroutine hdraw
    obtain ⟨n, rfl⟩ := hev
    have hev₁ : ∃ n, ev₁ = evaluator n := by
      rcases hround.evaluator with rfl | ⟨out, hout⟩
      · exact ⟨n, rfl⟩
      · exact hlater ev₁ out hout
    have hrest := ih hev₁ (fun w hw => halone w (List.mem_cons_of_mem _ hw)) rfl
    -- the next resume finds the coroutine as this one has left it
    have hkept : t.heap.coroutine i = s'.heap.coroutine i := halone _ List.mem_cons_self
    rw [hkept] at hrest
    exact .resumed hopen rfl hresume hrest

/-- A coroutine that is resumed gives what its body yields, and is suspended, or what its body has as a result, and
is finished. -/
theorem resume_gives {c : Coroutine} (hi : s.heap.coroutines[i]? = some c) (hopen : c.isFinished = false)
    (hv : (resumeCoroutine i).run n s = (.value v, t)) :
    ∃ calls o u, (eval c.body c.scope).run n (bodyState i c calls s) = (o, u) ∧ settled o = .value v ∧
      t.heap.coroutine i = stopped c o := by
  cases hpush : s.session.calls.push c.name with
  | error e =>
    rw [resume_refused hi hpush] at hv
    cases hv
  | ok calls =>
    have hwaits : c.Waits := by
      refine Coroutine.waits_of_ne (fun hstate => ?_) fun hstate => ?_
      · obtain ⟨e, -, hfails⟩ := resume_running hi hstate hpush n
        cases hfails.symm.trans hv
      · rw [Coroutine.isFinished, hstate] at hopen
        cases hopen
    obtain ⟨o, u, hbody, -, hbegun, ⟨trace, -, houtcome⟩, hleft⟩ := resume_waiting hi hwaits hpush n
    rw [hv] at houtcome hleft
    refine ⟨calls, o, u, hbody, ?_, ?_⟩
    · rcases hsettled : settled o with w | (_ | _ | _ | _ | _ | _) | _ <;> rw [hsettled] at houtcome <;> cases houtcome
      rfl
    · apply coroutine_eq
      rw [hleft, Moment.getElem?_set hbegun, if_pos rfl]

end

end Exec

/-! ## Loops over items -/

open Exec

/-- **Loops over items visit each of them once.**  A loop over a list, array, map or string has a round for each
element, key or unit that was there when it started, in this order.  A round runs the body in a new scope that binds
the variable to the item, and takes it up again wherever a `yield` leaves it, in whatever state.  When it ends
normally or by a `continue` the next item follows, whatever the body and those that have taken it up have done to the
container, the variable or anything else; after the last one the loop gives null, and a round that ends otherwise
leaves it.  If the rounds always end, so does the loop, after all of them.

A loop over a coroutine resumes it for each round, until it is finished, and never else.  As long as nothing else has
done so in the rounds, the items are the values that successive resumes give: what the body of the coroutine yields,
and in the end its result. -/
theorem foreach_visits_once {name : String} {iterable body : Node} {scope n rounds : Nat} {s s' : State} {v : Value}
    {later : Resumption} (hcalm : s.session.resume = [])
    (hvalue : eval iterable scope (evaluator n) s = (.value v, s')) (hfuel : rounds < n)
    (hlater : ∀ ev out, later ev out → ∃ n, rounds < n ∧ ev = evaluator n) :
    let loop := evalEach name iterable body scope
    let ev := evaluator n
    (∀ items, s'.heap.snapshot v = some items → items.length ≤ rounds →
      (∀ ev' o u, Concludes later loop ev (loop ev s) ev' o u ↔
        (o = .value .null ∧ ∃ visits, visits.map Visit.item = items ∧
          Visits later name body scope (.items items) visits ev s' (.items []) ev' u) ∨
        ∃ visits x rest ev₁ t o', items = visits.map Visit.item ++ x :: rest ∧
          Visits later name body scope (.items items) visits ev s' (.items (x :: rest)) ev₁ t ∧
          VisitConcludes later name body scope x ev₁ t ev' o' u ∧ ¬ o'.EndsRound ∧ o = o'.leaving) ∧
      (AllVisitsEnd later name body scope items.length (.items items) ev s' →
        AlwaysEnds later loop (fun ev' o u => o = .value .null ∧ ∃ visits, visits.map Visit.item = items ∧
          Visits later name body scope (.items items) visits ev s' (.items []) ev' u) ev (loop ev s))) ∧
    ∀ i, v = .coroutine i →
      (∀ ev' o u, Concludes later loop ev (loop ev s) ev' o u →
        (∃ visits ev₁ t, Visits later name body scope (.coroutine i) visits ev s' (.coroutine i) ev₁ t ∧
          VisitsEnd later name body scope (.coroutine i) ev₁ t ev' o u) ∨
        ∃ visits ev₁ t, rounds < visits.length ∧
          Visits later name body scope (.coroutine i) visits ev s' (.coroutine i) ev₁ t) ∧
      (∀ visits ev₁ t ev' o u, visits.length ≤ rounds →
        Visits later name body scope (.coroutine i) visits ev s' (.coroutine i) ev₁ t →
        VisitsEnd later name body scope (.coroutine i) ev₁ t ev' o u → Concludes later loop ev (loop ev s) ev' o u) ∧
      (AllVisitsEnd later name body scope rounds (.coroutine i) ev s' →
        AlwaysEnds later loop (fun ev' o u => o = .value .null ∧ (u.heap.coroutine i).isFinished = true ∧
          ∃ visits, Visits later name body scope (.coroutine i) visits ev s' (.coroutine i) ev' u) ev (loop ev s)) ∧
      (∀ visits ev₁ t, Visits later name body scope (.coroutine i) visits ev s' (.coroutine i) ev₁ t →
        (∀ w ∈ visits, w.ended.heap.coroutine i = w.begun.heap.coroutine i) →
        Successive i (s'.heap.coroutine i) (visits.map Visit.item) (t.heap.coroutine i)) ∧
      ∀ m c w t t', t.heap.coroutines[i]? = some c → c.isFinished = false →
        (resumeCoroutine i).run m t = (.value w, t') →
        ∃ calls o u, (eval c.body c.scope).run m (bodyState i c calls t) = (o, u) ∧ settled o = .value w ∧
          t'.heap.coroutine i = stopped c o := by
  intro loop ev
  have hbegin : ∀ source, eachSource v ev s' = (.value source, s') →
      loop ev s = eachRounds name body scope n source none ev s' := by
    intro source hsource
    show evalEach name iterable body scope (evaluator n) s = _
    rw [evalEach_of_calm hcalm, bind_apply, hvalue]
    dsimp only
    rw [bind_apply, hsource]
    rfl
  refine ⟨fun items hitems hlength => ?_, ?_⟩
  -- the items are all there when the loop begins, and there are rounds for them
  · have hsource : eachSource v ev s' = (.value (.items items), s') := by
      cases v <;> cases hitems <;> rfl
    have hlater' : ∀ ev out, later ev out → ∃ m, items.length < m ∧ ev = evaluator m :=
      Resumption.fuel_mono hlength hlater
    have hfuel' : items.length < n := Nat.lt_of_le_of_lt hlength hfuel
    rw [hbegin _ hsource]
    refine ⟨fun ev' o u => ?_, fun hends => ?_⟩
    · exact concludes_eachRounds_items ⟨n, hfuel', rfl⟩ hlater' hfuel'
    · exact alwaysEnds_eachRounds_items hlater' hfuel' hends
  -- a coroutine remains what the loop takes its items from, whatever it has given so far
  · rintro i rfl
    rw [hbegin (.coroutine i) rfl]
    refine ⟨fun ev' o u h => ?_, fun visits ev₁ t ev' o u hlength hvisits hend => ?_, fun hends => ?_,
      fun visits ev₁ t hvisits halone => ?_, fun m c w t t' => resume_gives⟩
    · rcases of_concludes_eachRounds ⟨n, hfuel, rfl⟩ hlater hfuel h with
        ⟨visits, last, ev₁, t, hvisits, hend⟩ | ⟨visits, last, ev₁, t, hmany, hvisits⟩
      · obtain rfl := of_visits_coroutine hvisits
        exact Or.inl ⟨visits, ev₁, t, hvisits, hend⟩
      · obtain rfl := of_visits_coroutine hvisits
        exact Or.inr ⟨visits, ev₁, t, hmany, hvisits⟩
    · exact concludes_eachRounds hvisits hend (Nat.lt_of_le_of_lt hlength hfuel)
        (Resumption.lt_fuel (Resumption.fuel_mono hlength hlater))
    · refine (alwaysEnds_eachRounds (Resumption.lt_fuel hlater) hfuel hends).mono ?_
      rintro ev' o u ⟨rfl, visits, last, hvisits, hover⟩
      obtain rfl := of_visits_coroutine hvisits
      exact ⟨rfl, (of_nextItem_none hover).2 i rfl, visits, hvisits⟩
    · refine successive_of_visits ⟨n, rfl⟩ (fun ev out hout => ?_) hvisits halone
      obtain ⟨m, -, hm⟩ := hlater ev out hout
      exact ⟨m, hm⟩

/-- The rounds of a loop over a snapshot with a bare `yield` as its body end, if all states in which they are taken up
again allow two more nodes. -/
theorem allVisitsEnd_yield {later : Resumption} {n : Nat} {s : State}
    (hlater : ∀ ev out, later ev out → ev = evaluator (n + 1) ∧ out.Affords 2) (name : String) (scope : Nat)
    (items : List Value) (hs : s.Affords 1) (hcalm : s.session.resume = []) :
    AllVisitsEnd later name (.yieldWith none) scope items.length (.items items) (evaluator (n + 1)) s := by
  induction items generalizing s with
  | nil => exact ⟨s, nextItem_items_nil⟩
  | cons v items ih =>
    have hround : (s.roundBegun scope name .any v).Affords 1 := ⟨hs.unmarked, hs.budget⟩
    refine Or.inr ⟨v, .items items, s, nextItem_items_cons v items, ?_⟩
    exact alwaysEnds_yield hlater hround hcalm fun t ht hcalm => ih ht hcalm

theorem Outcome.eq_of_value? {α : Type} {r : Outcome α × State} {a : α} (h : r.1.value? = some a) :
    r = (.value a, r.2) :=
  Prod.ext (Outcome.value?_eq_some.mp h) rfl

/-- A heap with a coroutine that yields 1 and gives 2, in a variable. -/
def countingHeap : Heap :=
  let body : Node := .block [.yieldWith (some (.literal (.int 1))), .literal (.int 2)]
  let (i, h) := Heap.empty.newRoot.2.newCoroutine "g" [] body [] 0
  h.declare 0 "c" .any (.coroutine i)

/-- A loop over the units of a string that is suspended in each of its two rounds, and taken up again in all states that
allow two more nodes; and a loop over a coroutine. -/
theorem foreach_visits_once_units :
    let s : State := ⟨Heap.empty.newRoot.2, .empty, [], .blank 1 0 Host.bare⟩
    let body : Node := .yieldWith none
    let later : Resumption := fun ev out => ev = evaluator 3 ∧ out.Affords 2
    let loop := evalEach "u" (.literal (.str "ab")) body 0
    let s₁ : State := ⟨countingHeap, .empty, [], .blank 1 0 Host.bare⟩
    let body₁ : Node := .literal .null
    let loop₁ := evalEach "x" (.var "c") body₁ 0
    AlwaysEnds later loop (fun _ o _ => o = .value .null) (evaluator 3) (loop (evaluator 3) s) ∧
    AlwaysEnds (fun _ _ => False) loop₁ (fun _ o u => o = .value .null ∧ (u.heap.coroutine 0).isFinished = true)
      (evaluator 9) (loop₁ (evaluator 9) s₁) := by
  intro s body later loop s₁ body₁ loop₁
  constructor
  · let s' := (eval (.literal (.str "ab")) 0 (evaluator 3) s).2
    have hvalue : eval (.literal (.str "ab")) 0 (evaluator 3) s = (.value (.str "ab"), s') :=
      Prod.ext (Outcome.value?_eq_some.mp (by decide +kernel)) rfl
    have hagain : ∀ ev out, later ev out → ev = evaluator (2 + 1) ∧ out.Affords 2 := fun _ _ h => h
    have hlater : ∀ ev out, later ev out → ∃ n, 2 < n ∧ ev = evaluator n := fun _ _ h => ⟨3, by decide, h.1⟩
    have haffords : s'.Affords 1 := ⟨rfl, nofun⟩
    have hends := allVisitsEnd_yield hagain "u" 0 [.char 97, .char 98] haffords rfl
    obtain ⟨hitems, -⟩ := @foreach_visits_once "u" (.literal (.str "ab")) body 0 3 2 s s' (.str "ab") later rfl hvalue
      (by decide) hlater
    obtain ⟨-, halways⟩ := hitems [.char 97, .char 98] (by decide +kernel) (by decide)
    exact (halways hends).mono fun _ _ _ h => h.1
  · let ev := evaluator 9
    -- two rounds, and a third call of `nextItem`, which finds the coroutine finished
    let t₀ := (eval (.var "c") 0 ev s₁).2
    let t₁ := (nextItem (.coroutine 0) ev t₀).2
    let t₂ := (eval body₁ t₁.heap.scopes.size ev (t₁.roundBegun 0 "x" .any (.int 1))).2
    let t₃ := (nextItem (.coroutine 0) ev t₂).2
    let t₄ := (eval body₁ t₃.heap.scopes.size ev (t₃.roundBegun 0 "x" .any (.int 2))).2
    have hgives₀ : (eval (.var "c") 0 ev s₁).1.value? = some (.coroutine 0) := by decide +kernel
    have hgives₁ : (nextItem (.coroutine 0) ev t₀).1.value? = some (some (.int 1, .coroutine 0)) := by decide +kernel
    have hgives₂ : (eval body₁ t₁.heap.scopes.size ev (t₁.roundBegun 0 "x" .any (.int 1))).1.value? = some .null := by
      decide +kernel
    have hgives₃ : (nextItem (.coroutine 0) ev t₂).1.value? = some (some (.int 2, .coroutine 0)) := by decide +kernel
    have hgives₄ : (eval body₁ t₃.heap.scopes.size ev (t₃.roundBegun 0 "x" .any (.int 2))).1.value? = some .null := by
      decide +kernel
    have hvalue : eval (.var "c") 0 ev s₁ = (.value (.coroutine 0), t₀) :=
      Outcome.eq_of_value? hgives₀
    have hfirst : nextItem (.coroutine 0) ev t₀ = (.value (some (.int 1, .coroutine 0)), t₁) :=
      Outcome.eq_of_value? hgives₁
    have hround : eval body₁ t₁.heap.scopes.size ev (t₁.roundBegun 0 "x" .any (.int 1)) = (.value .null, t₂) :=
      Outcome.eq_of_value? hgives₂
    have hsecond : nextItem (.coroutine 0) ev t₂ = (.value (some (.int 2, .coroutine 0)), t₃) :=
      Outcome.eq_of_value? hgives₃
    have hround' : eval body₁ t₃.heap.scopes.size ev (t₃.roundBegun 0 "x" .any (.int 2)) = (.value .null, t₄) :=
      Outcome.eq_of_value? hgives₄
    have hlast : nextItem (.coroutine 0) ev t₄ = (.value none, t₄) := nextItem_finished (by decide +kernel)
    have hends : AllVisitsEnd (fun _ _ => False) "x" body₁ 0 2 (.coroutine 0) ev t₀ := by
      refine Or.inr ⟨_, _, _, hfirst, ?_⟩
      rw [hround]
      refine .ended rfl ⟨Or.inl ⟨_, rfl⟩, Or.inr ⟨_, _, _, hsecond, ?_⟩⟩
      rw [hround']
      exact .ended rfl ⟨Or.inl ⟨_, rfl⟩, t₄, hlast⟩
    obtain ⟨-, hcoroutine⟩ := @foreach_visits_once "x" (.var "c") body₁ 0 9 2 s₁ t₀ (.coroutine 0) (fun _ _ => False)
      rfl hvalue (by decide) fun _ _ h => h.elim
    obtain ⟨-, -, halways, -⟩ := hcoroutine 0 rfl
    exact (halways hends).mono fun _ _ _ h => ⟨h.1, h.2.1⟩

end TreeScript
