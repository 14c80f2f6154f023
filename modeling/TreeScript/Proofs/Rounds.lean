import TreeScript.Proofs.Constructs
import TreeScript.Proofs.Scopes

/-
# Rounds of a loop

A loop over items has a round for each of them.  Every round has a scope of its own, which binds the variable
of the loop and nothing else, so that other names are found in it as they are outside
(`Heap.lookup_roundScope`).  What holds before a round with an item and holds again after it, for the items
that are left, holds after the loop (`Exec.eachRounds_items`).
-/

namespace TreeScript

open Exec

/-! ## The scope of a round -/

namespace Heap

variable {h : Heap} {scope i : Nat} {x y : String} {v : Value}

/-- A scope for a round of a loop, in which the variable has a value. -/
def roundScope (h : Heap) (scope : Nat) (x : String) (v : Value) : Heap :=
  (h.newScope scope).2.declare h.scopes.size x .any v

/-- A scope for a round of a loop whose variable has a type. -/
theorem scope_declare_newScope (ty : TypeKind) (a : Nat) :
    ((h.newScope scope).2.declare h.scopes.size x ty v).scope a =
      if a = h.scopes.size then
        ⟨Table.empty.insert x h.slots.size, scope :: (h.scope scope).ancestors⟩
      else h.scope a := by
  show ((h.scopes.push _).modify h.scopes.size _).getD a default = _
  rw [getD_modify, Array.size_push]
  rcases Nat.lt_trichotomy a h.scopes.size with ha | rfl | ha
  · rw [if_neg (by omega), if_neg (by omega), getD_push_lt _ _ ha]
    rfl
  · rw [if_pos ⟨rfl, Nat.lt_succ_self _⟩, if_pos rfl, getD_push_size]
    rfl
  · have hpush : (h.scopes.push ⟨.empty, scope :: (h.scope scope).ancestors⟩).size ≤ a := by
      rw [Array.size_push]
      omega
    rw [if_neg (by omega), if_neg (by omega), getD_of_size_le hpush, Heap.scope,
      getD_of_size_le (Nat.le_of_lt ha)]

theorem scope_roundScope (a : Nat) :
    (h.roundScope scope x v).scope a =
      if a = h.scopes.size then
        ⟨Table.empty.insert x h.slots.size, scope :: (h.scope scope).ancestors⟩
      else h.scope a :=
  scope_declare_newScope .any a

theorem lookupLocal_roundScope (hne : y ≠ x) (a : Nat) :
    (h.roundScope scope x v).lookupLocal a y = h.lookupLocal a y := by
  rw [lookupLocal, scope_roundScope]
  split
  · rename_i ha
    subst ha
    rw [lookupLocal, scope_size]
    dsimp only
    rw [Table.find?_insert, if_neg hne]
    rfl
  · rfl

/-- The variable of the loop is found in the scope of the round. -/
theorem read_declare_newScope (ty : TypeKind) :
    ((h.newScope scope).2.declare h.scopes.size x ty v).read h.scopes.size x = v := by
  have hlocal : ((h.newScope scope).2.declare h.scopes.size x ty v).lookupLocal h.scopes.size x =
      some h.slots.size := by
    rw [lookupLocal, scope_declare_newScope, if_pos rfl, Table.find?_insert, if_pos rfl]
  have hlookup : ((h.newScope scope).2.declare h.scopes.size x ty v).lookup h.scopes.size x =
      some h.slots.size := by
    rw [lookup, chain, List.findSome?_cons, hlocal]
  rw [read, hlookup]
  show ((h.slots.push ⟨ty, v, true⟩).getD h.slots.size default).value = v
  rw [getD_push_size]

theorem read_roundScope : (h.roundScope scope x v).read h.scopes.size x = v := read_declare_newScope .any

/-- Other variables are found as they are outside. -/
theorem lookup_roundScope (hne : y ≠ x) :
    (h.roundScope scope x v).lookup h.scopes.size y = h.lookup scope y := by
  have hinner : h.lookupLocal h.scopes.size y = none := by
    rw [lookupLocal, scope_size]
    rfl
  have hlocal : (fun a => (h.roundScope scope x v).lookupLocal a y) = fun a => h.lookupLocal a y :=
    funext (lookupLocal_roundScope hne)
  rw [lookup, hlocal, chain, scope_roundScope, if_pos rfl, List.findSome?_cons, hinner]
  rfl

theorem lookup_outside_roundScope (hne : y ≠ x) {c : Nat} (hc : c < h.scopes.size) :
    (h.roundScope scope x v).lookup c y = h.lookup c y := by
  have hlocal : (fun a => (h.roundScope scope x v).lookupLocal a y) = fun a => h.lookupLocal a y :=
    funext (lookupLocal_roundScope hne)
  rw [lookup, hlocal, chain, scope_roundScope, if_neg (Nat.ne_of_lt hc)]
  rfl

theorem slot_roundScope (hi : i < h.slots.size) : (h.roundScope scope x v).slot i = h.slot i :=
  getD_push_lt h.slots _ hi

end Heap

/-! ## Budgets -/

/-- A session that is not marked has no budget, or one that allows some more nodes. -/
structure State.Affords (s : State) (nodes : Nat) : Prop where
  unmarked : s.session.cancellation.marked = false
  budget : ∀ b, s.session.meter.budget = some b → s.session.meter.steps + nodes ≤ b

theorem enterNode_affords {s : State} {n : Nat} (h : s.Affords (n + 1)) :
    ∃ m, (∀ ev, enterNode ev s = (.value (), s.withMeter m)) ∧ (s.withMeter m).Affords n := by
  obtain ⟨hmarked, hbudget⟩ := h
  have hstep : ∃ m, s.session.meter.step = (.ok (), m) ∧
      ∀ b, m.budget = some b → m.steps + n ≤ b := by
    rw [Meter.step]
    cases hb : s.session.meter.budget with
    | none =>
      refine ⟨_, rfl, fun b hb' => ?_⟩
      cases hb.symm.trans hb'
    | some b =>
      have hsteps := hbudget b hb
      dsimp only
      rw [if_neg (by omega)]
      refine ⟨_, rfl, fun b' hb' => ?_⟩
      cases hb'
      dsimp only
      omega
  obtain ⟨m, hm, hleft⟩ := hstep
  refine ⟨m.countNode, fun ev => ?_, hmarked, hleft⟩
  rw [enterNode_apply, hmarked, hm]
  rfl

/-! ## Rounds -/

namespace Exec

variable {x : String} {body e : Node} {scope fuel slot : Nat} {ev : Evaluator} {s : State}

/-- A round of a loop over items. -/
def itemRound (x : String) (body : Node) (scope : Nat) (v : Value) (rest : List Value) :
    Exec (Option Value) := do
  let inner ← make fun h => (h.scopes.size, h.roundScope scope x v)
  runRound (.inEach inner (.items rest)) body inner

theorem eachRounds_items_cons (v : Value) (rest : List Value) :
    eachRounds x body scope (fuel + 1) (.items (v :: rest)) none =
      itemRound x body scope v rest >>=
        afterRound (eachRounds x body scope fuel (.items rest) none) := by
  rw [eachRounds_begin]
  show beginItem x body scope fuel (some (v, .items rest)) = _
  simp only [beginItem, eachRounds_resumed, itemRound, bind_assoc]
  rfl

/-- A loop over items has a round for each of them, one after the other: what the rounds lead on holds
after the last one. -/
theorem eachRounds_items {I : List Value → State → Prop}
    (hround : ∀ v rest s, I (v :: rest) s →
      ∃ t, itemRound x body scope v rest ev s = (.value none, t) ∧ I rest t)
    {items : List Value} (hfuel : items.length < fuel) (hs : I items s) :
    ∃ t, eachRounds x body scope fuel (.items items) none ev s = (.value .null, t) ∧ I [] t := by
  induction items generalizing fuel s with
  | nil =>
    obtain ⟨fuel, rfl⟩ : ∃ k, fuel = k + 1 := ⟨fuel - 1, by omega⟩
    rw [eachRounds_begin]
    exact ⟨s, rfl, hs⟩
  | cons v rest ih =>
    obtain ⟨fuel, rfl⟩ : ∃ k, fuel = k + 1 := ⟨fuel - 1, by omega⟩
    obtain ⟨t, ht, hI⟩ := hround v rest s hs
    have hfuel' : rest.length < fuel := Nat.lt_of_succ_lt_succ hfuel
    obtain ⟨u, hu, hend⟩ := ih hfuel' hI
    refine ⟨u, ?_, hend⟩
    rw [eachRounds_items_cons, bind_apply, ht]
    exact hu

/-- A loop that is not on the way back to a `yield` begins with the first item. -/
theorem evalEach_of_calm (hcalm : s.session.resume = []) :
    evalEach x e body scope ev s = (eval e scope >>= fun v => eachSource v >>= fun source =>
      eachRounds x body scope ev.fuel source none) ev s := by
  unfold evalEach
  rw [bind_apply, nextFrame, hcalm]
  rfl

/-- An assignment stores the value in the slot that the name has when the value is there. -/
theorem evalAssign_of_lookup {t : State} {v : Value} (hvalue : eval e scope ev s = (.value v, t))
    (hlookup : t.heap.lookup scope x = some slot) :
    evalAssign x e scope ev s = store slot x v ev t := by
  have hheap : heap (fun h => h.lookup scope x) ev t = (.value (some slot), t) := by
    rw [← hlookup]
    rfl
  rw [evalAssign, bind_apply, hvalue]
  dsimp only
  rw [bind_apply, hheap]

/-- A mutable variable takes every value. -/
theorem store_any {v w : Value} (hslot : s.heap.slot slot = ⟨.any, w, true⟩)
    (name : String) : store slot name v ev s = (.value v, s.withHeap (s.heap.setValue slot v)) := by
  show (coerce v (s.heap.slot slot).type >>= _ : Exec Value) ev s = _
  rw [hslot]
  show (if (s.heap.slot slot).isMutable = true then _ else _ : Exec Value) ev s = _
  rw [hslot]
  rfl

end Exec
end TreeScript
