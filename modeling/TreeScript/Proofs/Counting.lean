import TreeScript.Proofs.Isolation.Primitives
import TreeScript.Proofs.Loops

/-
# Counted loops

A counted loop has a round for each number of its range, in order.  Each round has a scope of its own in which
the variable has the number, converted to the type of the loop; the loop counts by itself, and not by what the
variable has become.  A round may stop at a `yield` and be taken up again, in the same scope, whatever has
happened meanwhile; when it ends normally or by a `continue`, the next number follows, and none is tried after
the last long of a direction (`counted_loops_visit_range`).

A leg that takes up a round again finds the number and the bound in the frame that the `yield` has left
(`Exec.takesUp_evalRange`), so that the loop goes on after the round as if it had not been left.
-/

namespace TreeScript

/-! ## Ranges -/

namespace Exec.Range

variable {direction : RangeDirection} {a b c : Int64} {i : Nat}

/-- How far a number is from another in a direction. -/
def ahead (direction : RangeDirection) (a b : Int64) : Int :=
  match direction with
  | .up => b.toInt - a.toInt
  | .down => a.toInt - b.toInt

/-- The number that is a number of steps ahead. -/
def step (direction : RangeDirection) (a : Int64) (i : Nat) : Int :=
  match direction with
  | .up => a.toInt + i
  | .down => a.toInt - i

/-- The numbers of a range, in the order of a loop in a direction. -/
def numbers (direction : RangeDirection) (a b : Int64) : List Int64 :=
  (List.range (ahead direction a b + 1).toNat).map fun i => .ofInt (step direction a i)

theorem includes_iff : includes direction a b = true ↔ 0 ≤ ahead direction a b := by
  cases direction with
  | up | down =>
    rw [includes, decide_eq_true_iff, Int64.le_iff_toInt_le, ahead]
    omega

theorem length_numbers : (numbers direction a b).length = (ahead direction a b + 1).toNat := by
  rw [numbers, List.length_map, List.length_range]

/-- The numbers of a range are longs. -/
theorem toInt_step (hi : (i : Int) ≤ ahead direction a b) :
    (Int64.ofInt (step direction a i)).toInt = step direction a i := by
  have ha := a.le_toInt
  have ha' := a.toInt_lt
  have hb := b.le_toInt
  have hb' := b.toInt_lt
  cases direction with
  | up | down =>
    rw [ahead] at hi
    rw [step, Int64.toInt_ofInt_of_le (by omega) (by omega)]

theorem toInt_getElem (hi : i < (numbers direction a b).length) :
    ((numbers direction a b)[i]).toInt = step direction a i := by
  rw [length_numbers] at hi
  simp only [numbers, List.getElem_map, List.getElem_range]
  exact toInt_step (b := b) (by omega)

/-- The number that follows another is a step ahead of it: the last long of a direction is followed by none, so that
nothing wraps around. -/
theorem toInt_of_next? (hc : next? direction a = some c) : c.toInt = step direction a 1 := by
  have ha := a.le_toInt
  have ha' := a.toInt_lt
  cases direction with
  | up =>
    rw [next?] at hc
    split at hc
    · cases hc
    · rename_i hmax
      cases hc
      have hne : a.toInt ≠ 2 ^ 63 - 1 := fun h => hmax (Int64.toInt_inj.mp (h.trans Int64.toInt_maxValue.symm))
      rw [Int64.toInt_add, Int64.toInt_one, Int.bmod_eq_of_le (by omega) (by omega)]
      rfl
  | down =>
    rw [next?] at hc
    split at hc
    · cases hc
    · rename_i hmin
      cases hc
      have hne : a.toInt ≠ -2 ^ 63 := fun h => hmin (Int64.toInt_inj.mp (h.trans Int64.toInt_minValue.symm))
      rw [Int64.toInt_sub, Int64.toInt_one, Int.bmod_eq_of_le (by omega) (by omega)]
      rfl

/-- A number that is not the last one of its range is followed by another. -/
theorem exists_next? (hlt : 0 < ahead direction a b) : ∃ c, next? direction a = some c := by
  have hb := b.le_toInt
  have hb' := b.toInt_lt
  cases direction with
  | up =>
    rw [ahead] at hlt
    refine ⟨a + 1, if_neg ?_⟩
    rintro rfl
    rw [Int64.toInt_maxValue] at hlt
    omega
  | down =>
    rw [ahead] at hlt
    refine ⟨a - 1, if_neg ?_⟩
    rintro rfl
    rw [Int64.toInt_minValue] at hlt
    omega

theorem ahead_of_step (hc : c.toInt = step direction a 1) (b : Int64) :
    ahead direction c b = ahead direction a b - 1 := by
  cases direction with
  | up | down =>
    rw [step] at hc
    rw [ahead, ahead, hc]
    omega

/-- What comes after the last number of a range, if anything, is not in the range. -/
theorem numbers_after_last (hlast : ahead direction a b = 0) (hc : next? direction a = some c) :
    numbers direction c b = [] := by
  rw [← List.length_eq_zero_iff, length_numbers, ahead_of_step (toInt_of_next? hc)]
  omega

theorem numbers_of_not_includes (h : ¬ includes direction a b = true) : numbers direction a b = [] := by
  rw [includes_iff] at h
  rw [← List.length_eq_zero_iff, length_numbers]
  omega

theorem not_includes_of_numbers (h : numbers direction a b = []) : ¬ includes direction a b = true := by
  rw [includes_iff]
  rw [← List.length_eq_zero_iff, length_numbers] at h
  omega

theorem numbers_of_includes (h : includes direction a b = true) :
    numbers direction a b = a :: ((next? direction a).map (numbers direction · b)).getD [] := by
  rw [includes_iff] at h
  have hcount : (ahead direction a b + 1).toNat = (ahead direction a b).toNat + 1 := by omega
  have hhead : Int64.ofInt (step direction a 0) = a := by
    cases direction with
    | up => exact (congrArg Int64.ofInt (Int.add_zero _)).trans (Int64.ofInt_toInt a)
    | down => exact (congrArg Int64.ofInt (Int.sub_zero _)).trans (Int64.ofInt_toInt a)
  rw [numbers, hcount, List.range_succ_eq_map, List.map_cons, hhead, List.map_map]
  congr 1
  -- after the last number `next?` may still give one, but that has an empty range
  rcases Int.lt_or_eq_of_le h with hlt | hlast
  · obtain ⟨c, hc⟩ := exists_next? hlt
    have hstep := toInt_of_next? hc
    have hsteps (i : Nat) : step direction c i = step direction a (i + 1) := by
      cases direction with
      | up | down =>
        rw [step] at hstep ⊢
        rw [step, hstep]
        omega
    have hrest : (ahead direction c b + 1).toNat = (ahead direction a b).toNat := by
      rw [ahead_of_step hstep]
      omega
    rw [hc, Option.map_some, Option.getD_some, numbers, hrest]
    exact List.map_congr_left fun i _ => congrArg Int64.ofInt (hsteps i).symm
  · rw [← hlast]
    cases hc : next? direction a with
    | none => rfl
    | some c =>
      rw [Option.map_some, Option.getD_some, numbers_after_last hlast.symm hc]
      rfl

end Exec.Range

/-! ## Conversions of the numbers -/

namespace Exec

variable {ty : TypeKind} {n : Int64} {v : Value} {ev ev' : Evaluator} {s t : State}

theorem stringify_long (hfuel : 0 < ev.fuel) : stringify (.long n) ev s = (.value (toString n.toInt), s) := by
  show stringifyTo ev.fuel (.long n) false ev s = _
  obtain ⟨k, hk⟩ := Nat.exists_eq_succ_of_ne_zero (Nat.ne_of_gt hfuel)
  rw [hk]
  rfl

theorem makeChecked_cast_of_value (hty : ty ≠ .ref)
    (h : makeChecked (fun heap => heap.cast (.long n) ty) ev s = (.value v, t)) (s' : State) :
    makeChecked (fun heap => heap.cast (.long n) ty) ev' s' = (.value v, s') := by
  rw [makeChecked_apply] at h ⊢
  rcases Heap.cast_primitive (v := .long n) rfl hty with ⟨w, _, hw⟩ | ⟨e, he⟩
  · rw [hw] at h ⊢
    cases h
    rfl
  · rw [he] at h
    cases h

/-- What a number converts to does not depend on the state. -/
theorem coerce_long_of_value (h : coerce (.long n) ty ev s = (.value v, t)) (hfuel : 0 < ev'.fuel)
    (s' : State) : coerce (.long n) ty ev' s' = (.value v, s') := by
  cases ty with
  | ref | any | void | bool =>
    cases h
    rfl
  | object cls => cases h
  | string =>
    have htext : coerce (.long n) .string ev s = (stringify (.long n) >>= fun x => pure (.str x)) ev s := rfl
    have hev : 0 < ev.fuel := by
      apply Nat.pos_of_ne_zero
      intro hzero
      obtain ⟨text, u, hgiven, _⟩ := of_bind_eq_value (htext.symm.trans h)
      change stringifyTo ev.fuel (.long n) false ev s = _ at hgiven
      rw [hzero] at hgiven
      cases hgiven
    rw [htext, bind_apply, stringify_long hev] at h
    show (stringify (.long n) >>= fun x => pure (.str x) : Exec Value) ev' s' = _
    rw [bind_apply, stringify_long hfuel]
    cases h
    rfl
  | _ =>
    change makeChecked (fun heap => heap.cast (.long n) _) ev s = _ at h
    exact makeChecked_cast_of_value (by rintro ⟨⟩) h s'

end Exec

/-! ## Rounds -/

namespace Exec

section
variable (later : Resumption) (name : String) (ty : TypeKind) (convert : Int64 → Value) (body : Node)
variable (scope : Nat)

/-- What the body comes to in the round for a number. -/
def RoundConcludes (n : Int64) (ev : Evaluator) (s : State) :
    Evaluator → Outcome Value → State → Prop :=
  Concludes later (eval body s.heap.scopes.size) ev
    (eval body s.heap.scopes.size ev (s.roundBegun scope name ty (convert n)))

/-- The rounds for some numbers, one after the other. -/
inductive CountedRounds : List Int64 → Evaluator → State → Evaluator → State → Prop
  | done {ev : Evaluator} {s : State} : CountedRounds [] ev s ev s
  | round {n : Int64} {ns : List Int64} {ev ev₁ ev₂ : Evaluator} {s t u : State} {o : Outcome Value}
      (h : RoundConcludes later name ty convert body scope n ev s ev₁ o t) (ho : o.EndsRound)
      (hrest : CountedRounds ns ev₁ t ev₂ u) : CountedRounds (n :: ns) ev s ev₂ u

/-- In each of the rounds for some numbers the body ends in the end, and the next round is to follow. -/
def RoundsEnd : List Int64 → Evaluator → State → Prop
  | [], _, _ => True
  | n :: ns, ev, s =>
    AlwaysEnds later (eval body s.heap.scopes.size) (fun ev₁ o t => o.EndsRound ∧ RoundsEnd ns ev₁ t) ev
      (eval body s.heap.scopes.size ev (s.roundBegun scope name ty (convert n)))

/-- The rounds for some numbers are left in one of them, or all of them are run. -/
def RunsThrough (ns : List Int64) (ev : Evaluator) (s : State) (ev' : Evaluator) (o : Outcome Value)
    (u : State) : Prop :=
  (o = .value .null ∧ CountedRounds later name ty convert body scope ns ev s ev' u) ∨
    ∃ before n after ev₁ t o', ns = before ++ n :: after ∧
      CountedRounds later name ty convert body scope before ev s ev₁ t ∧
      RoundConcludes later name ty convert body scope n ev₁ t ev' o' u ∧ ¬ o'.EndsRound ∧ o = o'.leaving

end

/-- A long is a bound as it is. -/
theorem rangeBound_long (n : Int64) (ev : Evaluator) (s : State) : rangeBound (.long n) ev s = (.value n, s) := by
  have hwrap : Heap.wrap .long n.toInt = n.toInt := n.toInt_bmod
  show (Outcome.value (Int64.ofInt (Heap.wrap .long n.toInt)), s) = _
  rw [hwrap, Int64.ofInt_toInt]

/-- The bounds of a counted loop. -/
def rangeBounds (start last : Node) (scope : Nat) : Exec (Int64 × Int64) := do
  let first ← eval start scope
  let last ← eval last scope
  let first ← rangeBound first
  let last ← rangeBound last
  return (first, last)

theorem evalRange_begin {name : String} {ty : TypeKind} {direction : RangeDirection} {start last : Node}
    {body : Node} {scope : Nat} {ev : Evaluator} {s : State} (hcalm : s.session.resume = []) :
    evalRange name ty start last direction body scope ev s =
      (do
        let (first, last) ← rangeBounds start last scope
        rangeRounds name ty direction last body scope (← fuel) first none : Exec Value) ev s := by
  rw [evalRange, nextFrame_bind hcalm, rangeBounds]
  simp only [bind_assoc, pure_bind]

/-! ## Legs of a counted loop -/

section
variable {name : String} {ty : TypeKind} {direction : RangeDirection} {start last : Node} {stop n : Int64}
variable {body : Node} {scope bound inner : Nat} {ev : Evaluator} {s : State} {v : Value}

/-- A leg takes the round up again that the last one has left, in the same scope. -/
theorem takesUp_evalRange (hn : Range.includes direction n stop = true) :
    TakesUp (evalRange name ty start last direction body scope) (.inRange inner n stop)
      (fun bound => rangeRest name ty direction stop body scope bound n) body inner := by
  intro ev bound hfuel out fs
  show rangeRounds name ty direction stop body scope ev.fuel n (some inner) ev (out.withResume fs) = _
  rw [hfuel, rangeRounds_resumed, if_pos hn, runRound_bind_eq]
  rfl

/-- A round begins. -/
theorem rangeRounds_round (hn : Range.includes direction n stop = true)
    (hv : ∀ t, coerce (.long n) ty ev t = (.value v, t)) :
    rangeRounds name ty direction stop body scope (bound + 1) n none ev s =
      loopLeg (.inRange s.heap.scopes.size n stop) (rangeRest name ty direction stop body scope bound n) ev
        (eval body s.heap.scopes.size ev (s.roundBegun scope name ty v)) := by
  rw [rangeRounds_begin, if_pos hn, bind_apply]
  show (coerce (.long n) ty >>= _) ev (s.withHeap (s.heap.newScope scope).2) = _
  rw [bind_apply, hv]
  show rangeRounds name ty direction stop body scope (bound + 1) n (some s.heap.scopes.size) ev
    (s.roundBegun scope name ty v) = _
  rw [rangeRounds_resumed, if_pos hn, runRound_bind_eq]
  rfl

end

/-! ## Runs -/

section
variable {later : Resumption} {name : String} {ty : TypeKind} {direction : RangeDirection}
variable {start last : Node} {stop n : Int64} {convert : Int64 → Value} {body : Node} {scope : Nat}
variable {bound inner : Nat} {ev ev' : Evaluator} {s u : State} {o : Outcome Value} {ns : List Int64}

theorem runsThrough_nil :
    RunsThrough later name ty convert body scope [] ev s ev' o u ↔ ev = ev' ∧ o = .value .null ∧ s = u := by
  constructor
  · rintro (⟨rfl, hrounds⟩ | ⟨before, m, after, _, _, _, hns, _⟩)
    · cases hrounds
      exact ⟨rfl, rfl, rfl⟩
    · cases before <;> cases hns
  · rintro ⟨rfl, rfl, rfl⟩
    exact Or.inl ⟨rfl, .done⟩

/-- A run of rounds begins with a round, which leaves the loop or is followed by the others. -/
theorem runsThrough_cons :
    RunsThrough later name ty convert body scope (n :: ns) ev s ev' o u ↔
      ∃ ev₁ o₁ t, RoundConcludes later name ty convert body scope n ev s ev₁ o₁ t ∧
        ((o₁.EndsRound ∧ RunsThrough later name ty convert body scope ns ev₁ t ev' o u) ∨
          (¬ o₁.EndsRound ∧ ev₁ = ev' ∧ o = o₁.leaving ∧ t = u)) := by
  constructor
  · rintro (⟨rfl, hrounds⟩ | ⟨before, m, after, ev₂, t₂, o₂, hns, hbefore, hround, ho, rfl⟩)
    · cases hrounds with
      | round h ho hrest => exact ⟨_, _, _, h, Or.inl ⟨ho, Or.inl ⟨rfl, hrest⟩⟩⟩
    · cases before with
      | nil =>
        cases hns
        cases hbefore
        exact ⟨_, _, _, hround, Or.inr ⟨ho, rfl, rfl, rfl⟩⟩
      | cons n' before =>
        cases hns
        cases hbefore with
        | round h hends hrest =>
          exact ⟨_, _, _, h, Or.inl ⟨hends, Or.inr ⟨before, m, after, _, _, _, rfl, hrest, hround, ho, rfl⟩⟩⟩
  · rintro ⟨ev₁, o₁, t, h, ⟨hends, hrest⟩ | ⟨ho, rfl, rfl, rfl⟩⟩
    · rcases hrest with ⟨rfl, hrounds⟩ | ⟨before, m, after, ev₂, t₂, o₂, rfl, hbefore, hround, ho, rfl⟩
      · exact Or.inl ⟨rfl, .round h hends hrounds⟩
      · exact Or.inr ⟨n :: before, m, after, _, _, _, rfl, .round h hends hbefore, hround, ho, rfl⟩
    · exact Or.inr ⟨[], n, ns, _, _, _, rfl, .done, h, ho, rfl⟩

/-- A range that is not empty begins where it begins. -/
theorem head_numbers {m : Int64} (hns : Range.numbers direction n stop = m :: ns) :
    Range.includes direction n stop = true ∧ m = n := by
  by_cases hn : Range.includes direction n stop = true
  · rw [Range.numbers_of_includes hn, List.cons.injEq] at hns
    exact ⟨hn, hns.1.symm⟩
  · cases (Range.numbers_of_not_includes hn).symm.trans hns

/-- The rounds that follow the one for a number are those for the numbers that are left. -/
theorem rangeRest_cases (hns : Range.numbers direction n stop = n :: ns) :
    (ns = [] ∧ ∀ bound, rangeRest name ty direction stop body scope bound n = pure .null) ∨
    ∃ c, Range.numbers direction c stop = ns ∧ ∀ bound,
      rangeRest name ty direction stop body scope bound n =
        rangeRounds name ty direction stop body scope bound c none := by
  rw [Range.numbers_of_includes (head_numbers hns).1, List.cons.injEq] at hns
  obtain ⟨_, hns⟩ := hns
  cases hnext : Range.next? direction n with
  | none =>
    rw [hnext] at hns
    refine Or.inl ⟨hns.symm, fun bound => ?_⟩
    rw [rangeRest, hnext]
  | some c =>
    rw [hnext] at hns
    refine Or.inr ⟨c, hns, fun bound => ?_⟩
    rw [rangeRest, hnext]

/-- The rounds of a counted loop, by induction on the numbers that are left. -/
theorem concludes_rangeRounds (hns : Range.numbers direction n stop = ns)
    (hconvert : ∀ m ∈ ns, ∃ ev s t, coerce (.long m) ty ev s = (.value (convert m), t))
    (hlater : ∀ ev out, later ev out → ns.length < ev.fuel) (hbound : ns.length < bound)
    (hfuel : 0 < ev.fuel) (s : State) :
    Concludes later (evalRange name ty start last direction body scope) ev
        (rangeRounds name ty direction stop body scope bound n none ev s) ev' o u ↔
      RunsThrough later name ty convert body scope ns ev s ev' o u := by
  obtain ⟨k, rfl⟩ := Nat.exists_eq_succ_of_ne_zero (Nat.ne_zero_of_lt hbound)
  induction ns generalizing n k ev s ev' o u with
  | nil =>
    rw [rangeRounds_begin, if_neg (Range.not_includes_of_numbers hns), runsThrough_nil]
    exact concludes_of_ended rfl
  | cons m ns ih =>
    obtain ⟨hn, rfl⟩ := head_numbers hns
    obtain ⟨ev₀, s₀, t₀, hv⟩ := hconvert m List.mem_cons_self
    -- the number converts to the same value in the state that the rounds before have left
    rw [runsThrough_cons, rangeRounds_round hn fun t => coerce_long_of_value hv hfuel t]
    have hpos : ∀ ev₁, ev₁ = ev ∨ (∃ out, later ev₁ out) → 0 < ev₁.fuel := by
      rintro ev₁ (rfl | ⟨out, hout⟩)
      · exact hfuel
      · exact Nat.zero_lt_of_lt (hlater ev₁ out hout)
    have hafter : ∀ bound ev₁ t, ns.length + 1 ≤ bound → 0 < ev₁.fuel →
        (Concludes later (evalRange name ty start last direction body scope) ev₁
            (rangeRest name ty direction stop body scope bound m ev₁ t) ev' o u ↔
          RunsThrough later name ty convert body scope ns ev₁ t ev' o u) := by
      intro bound ev₁ t hbound hfuel
      rcases rangeRest_cases hns with ⟨rfl, hover⟩ | ⟨c, hc, hrest⟩
      · rw [hover, runsThrough_nil]
        exact concludes_of_ended rfl
      · obtain ⟨k, rfl⟩ := Nat.exists_eq_succ_of_ne_zero (Nat.ne_zero_of_lt hbound)
        rw [hrest]
        refine ih hc (fun m hm => hconvert m (List.mem_cons_of_mem _ hm)) (fun ev out hout => ?_) hfuel t k hbound
        exact Nat.lt_of_succ_lt (hlater ev out hout)
    constructor
    · intro h
      obtain ⟨ev₁, o₁, t, hround, hcases⟩ :=
        of_concludes_loopLeg (takesUp_evalRange hn) hlater (Nat.le_of_lt_succ hbound) h
      refine ⟨ev₁, o₁, t, hround, hcases.imp_left ?_⟩
      rintro ⟨hends, bound, hbound, hrest⟩
      exact ⟨hends, (hafter bound ev₁ t hbound (hpos ev₁ hround.evaluator)).mp hrest⟩
    · rintro ⟨ev₁, o₁, t, hround, hcases⟩
      refine concludes_loopLeg (takesUp_evalRange hn) hlater (Nat.le_of_lt_succ hbound) hround
        (hcases.imp_left ?_)
      rintro ⟨hends, hrest⟩
      exact ⟨hends, fun bound hbound => (hafter bound ev₁ t hbound (hpos ev₁ hround.evaluator)).mpr hrest⟩

/-- However the rounds of a counted loop are taken up again, it ends if its rounds do. -/
theorem alwaysEnds_rangeRounds (hns : Range.numbers direction n stop = ns)
    (hconvert : ∀ m ∈ ns, ∃ ev s t, coerce (.long m) ty ev s = (.value (convert m), t))
    (hlater : ∀ ev out, later ev out → ns.length < ev.fuel) (hbound : ns.length < bound)
    (hfuel : 0 < ev.fuel) (hends : RoundsEnd later name ty convert body scope ns ev s) :
    AlwaysEnds later (evalRange name ty start last direction body scope) (fun _ o _ => o = .value .null) ev
      (rangeRounds name ty direction stop body scope bound n none ev s) := by
  obtain ⟨k, rfl⟩ := Nat.exists_eq_succ_of_ne_zero (Nat.ne_zero_of_lt hbound)
  induction ns generalizing n k ev s with
  | nil =>
    rw [rangeRounds_begin, if_neg (Range.not_includes_of_numbers hns)]
    exact .ended rfl rfl
  | cons m ns ih =>
    obtain ⟨hn, rfl⟩ := head_numbers hns
    obtain ⟨ev₀, s₀, t₀, hv⟩ := hconvert m List.mem_cons_self
    rw [rangeRounds_round hn fun t => coerce_long_of_value hv hfuel t]
    -- the fuel of whoever ends the round is known from how it has come to the round
    refine alwaysEnds_loopLeg (takesUp_evalRange hn) hlater
      (P := fun ev t => 0 < ev.fuel ∧ RoundsEnd later name ty convert body scope ns ev t) ?_
      (Nat.le_of_lt_succ hbound) (hends.concludes.mono ?_)
    · rintro bound ev t hbound ⟨hfuel, hends⟩
      rcases rangeRest_cases hns with ⟨rfl, hover⟩ | ⟨c, hc, hrest⟩
      · rw [hover]
        exact .ended rfl rfl
      · obtain ⟨k, rfl⟩ := Nat.exists_eq_succ_of_ne_zero (Nat.ne_zero_of_lt hbound)
        rw [hrest]
        refine ih hc (fun m hm => hconvert m (List.mem_cons_of_mem _ hm)) (fun ev out hout => ?_) hfuel hends k
          hbound
        exact Nat.lt_of_succ_lt (hlater ev out hout)
    · rintro ev₁ o t ⟨⟨ho, hrest⟩, hround⟩
      rcases hround.evaluator with rfl | ⟨out, hout⟩
      · exact ⟨ho, hfuel, hrest⟩
      · exact ⟨ho, Nat.zero_lt_of_lt (hlater ev₁ out hout), hrest⟩

end

end Exec

/-! ## Counted loops -/

/-- **Counted loops visit exactly their range.**  Where the bounds of a loop come to two longs and every number of
the range converts to the type of the loop, the loop has a round for each of the numbers: there are as many as the
range has, and the next one is a step ahead of the last.  A round runs the body in a new scope that binds the
variable to the converted number, and takes it up again wherever a `yield` leaves it, in whatever state.  When it
ends normally or by a `continue` the next number follows, whatever the body has done; after the last one the loop
gives null, and a round that ends otherwise leaves it.  If the rounds always end, so does the loop. -/
theorem counted_loops_visit_range {name : String} {ty : TypeKind} {start last : Node}
    {direction : RangeDirection} {body : Node} {scope : Nat} {ev : Evaluator} {s s' : State} {a b : Int64}
    {convert : Int64 → Value} {later : Exec.Resumption} (hcalm : s.session.resume = [])
    (hbounds : Exec.rangeBounds start last scope ev s = (.value (a, b), s'))
    (hconvert : ∀ n ∈ Exec.Range.numbers direction a b,
      ∃ ev s t, Exec.coerce (.long n) ty ev s = (.value (convert n), t))
    (hfuel : (Exec.Range.numbers direction a b).length < ev.fuel)
    (hlater : ∀ ev' out, later ev' out → (Exec.Range.numbers direction a b).length < ev'.fuel) :
    let loop := Exec.evalRange name ty start last direction body scope
    let numbers := Exec.Range.numbers direction a b
    (numbers.length = (Exec.Range.ahead direction a b + 1).toNat ∧
      ∀ i (hi : i < numbers.length), (numbers[i]).toInt = Exec.Range.step direction a i) ∧
    (∀ ev' o u, Exec.Concludes later loop ev (loop ev s) ev' o u ↔
      (o = .value .null ∧ Exec.CountedRounds later name ty convert body scope numbers ev s' ev' u) ∨
      ∃ before n after ev₁ t o', numbers = before ++ n :: after ∧
        Exec.CountedRounds later name ty convert body scope before ev s' ev₁ t ∧
        Exec.RoundConcludes later name ty convert body scope n ev₁ t ev' o' u ∧ ¬ o'.EndsRound ∧
        o = o'.leaving) ∧
    (Exec.RoundsEnd later name ty convert body scope numbers ev s' →
      Exec.AlwaysEnds later loop (fun _ o _ => o = .value .null) ev (loop ev s)) := by
  intro loop numbers
  have hbegin : loop ev s = Exec.rangeRounds name ty direction b body scope ev.fuel a none ev s' := by
    show Exec.evalRange name ty start last direction body scope ev s = _
    rw [Exec.evalRange_begin hcalm, Exec.bind_apply, hbounds]
    rfl
  have hpos : 0 < ev.fuel := Nat.zero_lt_of_lt hfuel
  rw [hbegin]
  refine ⟨⟨Exec.Range.length_numbers, fun i hi => Exec.Range.toInt_getElem hi⟩, fun ev' o u => ?_, fun hends => ?_⟩
  · exact Exec.concludes_rangeRounds rfl hconvert hlater hfuel hpos s'
  · exact Exec.alwaysEnds_rangeRounds rfl hconvert hlater hfuel hpos hends

/-- The rounds of a counted loop over a bare `yield` end, if all states in which they are taken up again allow two
more nodes. -/
theorem roundsEnd_yield {later : Exec.Resumption} {n : Nat} {s : State}
    (hlater : ∀ ev out, later ev out → ev = evaluator (n + 1) ∧ out.Affords 2) (name : String) (ty : TypeKind)
    (convert : Int64 → Value) (scope : Nat) (ns : List Int64) (hs : s.Affords 1)
    (hcalm : s.session.resume = []) :
    Exec.RoundsEnd later name ty convert (.yieldWith none) scope ns (evaluator (n + 1)) s := by
  induction ns generalizing s with
  | nil => trivial
  | cons m ns ih =>
    have hround : (s.roundBegun scope name ty (convert m)).Affords 1 := ⟨hs.unmarked, hs.budget⟩
    exact alwaysEnds_yield hlater hround hcalm fun t ht hcalm => ih ht hcalm

/-- A loop up to the last long that is suspended in each of its two rounds, and taken up again in all states that
allow two more nodes. -/
theorem counted_loops_visit_range_last :
    let s : State := ⟨Heap.empty.newRoot.2, .empty, [], .blank 1 0 Host.bare⟩
    let ev := evaluator 3
    let first := Int64.maxValue - 1
    let last := Int64.maxValue
    let body : Node := .yieldWith none
    let later : Exec.Resumption := fun ev' out => ev' = ev ∧ out.Affords 2
    let loop := Exec.evalRange "i" .string (.literal (.long first)) (.literal (.long last)) .up body 0
    Exec.Range.numbers .up first last = [first, last] ∧
    Exec.AlwaysEnds later loop (fun _ o _ => o = .value .null) ev (loop ev s) := by
  intro s ev first last body later loop
  have hnumbers : Exec.Range.numbers .up first last = [first, last] := by decide
  obtain ⟨s', hbounds, haffords, hcalm⟩ : ∃ s', Exec.rangeBounds (.literal (.long first)) (.literal (.long last)) 0
      ev s = (.value (first, last), s') ∧ s'.Affords 1 ∧ s'.session.resume = [] := by
    let s' := (Exec.eval (.literal (.long last)) 0 ev (Exec.eval (.literal (.long first)) 0 ev s).2).2
    refine ⟨s', ?_, ⟨rfl, nofun⟩, rfl⟩
    show (Exec.rangeBound (.long first) >>= fun a => Exec.rangeBound (.long last) >>= fun b => pure (a, b)) ev s' = _
    rw [Exec.bind_apply, Exec.rangeBound_long]
    show (Exec.rangeBound (.long last) >>= fun b => pure (first, b)) ev s' = _
    rw [Exec.bind_apply, Exec.rangeBound_long]
    rfl
  refine ⟨hnumbers, ?_⟩
  refine (@counted_loops_visit_range "i" .string (.literal (.long first)) (.literal (.long last)) .up body 0 ev s
    s' first last (fun n => .str (toString n.toInt)) later rfl hbounds ?_ ?_ ?_).2.2 ?_
  · exact fun n _ => ⟨ev, s, s, rfl⟩
  · rw [hnumbers]
    decide
  · rintro _ out ⟨rfl, _⟩
    rw [hnumbers]
    decide
  · rw [hnumbers]
    exact roundsEnd_yield (n := 2) (fun _ _ h => h) _ _ _ _ _ haffords hcalm

end TreeScript
