import TreeScript.Proofs.Sessions

/-
# What a call site resolves to, stays

A call site remembers the function that it resolved to, so that a session goes on calling this function
when the name leads elsewhere later.  The cell of a site has room for one session: what it remembers is
lost when another session resolves the site.  Until then every call at the site in the first session
is a call of the function remembered, whatever the sessions evaluate and whatever is added to and
removed from their catalogs.

To say so, the evaluator of the session is replaced by one that knows the function of the site and
never asks for it: `pinnedDispatch` calls the function wherever the site is evaluated.  The two give
the same answers over every history (`serve_pinned`).
-/

namespace TreeScript

open Exec

/-! ## Cells -/

namespace CallSites

theorem get?_reserve (s : CallSites) (n site session : Nat) :
    (s.reserve n).get? site session = s.get? site session := by
  have hcell : (s.reserve n).cells.getD site .empty = s.cells.getD site .empty := by
    simp only [reserve, Array.getD_eq_getD_getElem?, Array.getElem?_append, Array.getElem?_replicate]
    split
    · rfl
    · rename_i h
      rw [Array.getElem?_eq_none (by omega)]
      split <;> rfl
  rw [get?, get?, hcell]

/-- A site that resolves remembers this and nothing else. -/
theorem get?_set (s : CallSites) (site site' session slot other : Nat) :
    (s.set site session slot).get? site' other =
      if site = site' ∧ site < s.cells.size then (if session = other then some slot else none)
      else s.get? site' other := by
  simp only [get?, set, Array.getD_eq_getD_getElem?, Array.getElem?_modify]
  by_cases h : site = site'
  · subst h
    by_cases hlt : site < s.cells.size
    · simp [hlt, CallCell.set, CallCell.get?]
    · simp [hlt]
  · simp [h]

end CallSites

/-! ## The function that is called -/

namespace Exec

/-- What a node does where a call site always calls one function. -/
def pinnedDispatch (site slot : Nat) (f : Function) (node : Node) (scope : Nat) : Exec Value :=
  match node with
  | .call p name args =>
    if p = site then applyCallee slot f args scope false else dispatch (.call p name args) scope
  | .returnWith (some (.call p name args)) =>
    if p = site then do
      enterNode
      returning (applyCallee slot f args scope true)
    else dispatch (.returnWith (some (.call p name args))) scope
  | node => dispatch node scope

end Exec

/-- A site of a session remembers a function, which is in its slot of the catalog. -/
def Resolved (site slot : Nat) (f : Function) (owner : Nat) (sites : CallSites) (id : Nat)
    (c : Catalog) : Prop :=
  id = owner ∧ sites.get? site owner = some slot ∧ c.get? slot = some f

/-- **What a site has resolved to in the session that runs, it keeps.** -/
theorem resolved_kept (site slot : Nat) (f : Function) (owner : Nat) :
    Invariant.SitesKept (Resolved site slot f owner) where
  add g h := ⟨h.1, h.2.1, Catalog.get?_add g h.2.2⟩
  reserve n h := ⟨h.1, by rw [CallSites.get?_reserve]; exact h.2.1, h.2.2⟩
  remember := by
    rintro sites id c p k ⟨rfl, hget, hf⟩ hnone
    refine ⟨rfl, ?_, hf⟩
    rw [CallSites.get?_set]
    split
    · -- the site remembers its function, so it is not resolved again
      rename_i h
      obtain ⟨rfl, _⟩ := h
      rw [hget, Option.bind_some, hf] at hnone
      cases hnone
    · exact hget

/-- What a site has resolved to in a session is kept while another one runs, unless this one resolves
the site itself. -/
def ResolvedBefore (site slot owner other : Nat) (sites : CallSites) (id : Nat) (_ : Catalog) : Prop :=
  id = other ∧ (sites.get? site owner = some slot ∨ (sites.get? site other).isSome)

theorem resolvedBefore_kept {site slot owner other : Nat} :
    Invariant.SitesKept (ResolvedBefore site slot owner other) where
  add _ h := h
  reserve n h := by
    refine ⟨h.1, ?_⟩
    rw [CallSites.get?_reserve, CallSites.get?_reserve]
    exact h.2
  remember := by
    rintro sites id c p k ⟨rfl, hget⟩ _
    refine ⟨rfl, ?_⟩
    rw [CallSites.get?_set, CallSites.get?_set]
    by_cases h : p = site ∧ p < sites.cells.size
    · right
      rw [if_pos h, if_pos rfl]
      rfl
    · rw [if_neg h, if_neg h]
      exact hget

/-! ## The two evaluators -/

/-- The evaluator of a session in which a site always calls one function. -/
def pinnedEvaluator (site slot : Nat) (f : Function) (fuel : Nat) : Evaluator :=
  .untraced fuel (evaluateBy (pinnedDispatch site slot f) fuel)

section
variable {site slot : Nat} {f : Function} {owner : Nat}

/-- A site that remembers its function gives it, and changes nothing. -/
theorem resolveCall_of_resolved {s : State} (name : String) (argc : Nat) (ev : Evaluator)
    (h : Resolved site slot f owner s.sites s.session.id s.session.catalog) :
    resolveCall site name argc ev s = (.value (slot, f), s) := by
  obtain ⟨hid, hget, hf⟩ := h
  have hremembered : remembered site s = some (slot, f) := by
    rw [remembered, hid, hget, Option.bind_some, hf]
    rfl
  rw [resolveCall_apply, hremembered]

/-- The evaluator and the one that never asks a site for its function agree where the site has
resolved to this function. -/
theorem ready_pinned (fuel : Nat) :
    (Invariant.ofSites (Resolved site slot f owner) False False).toSimulation.Ready (evaluator fuel)
      (pinnedEvaluator site slot f fuel) := by
  have K := (resolved_kept site slot f owner).kept False False
  have L := K.lawful
  unfold evaluator pinnedEvaluator
  rw [evaluateNode_eq_evaluateBy]
  refine Simulation.ready_evaluateBy L (fun {ev ev' w e c c'} R he hc => ?_) fuel
  cases hc
  -- the two sides differ at a call at this site only, whether or not it is returned
  have hother : ∀ e, (Invariant.ofSites (Resolved site slot f owner) False False).toSimulation.Agrees
      ev ev' w (dispatch e c) (dispatch e c) := fun e =>
    Simulation.agrees_dispatch_of_steady L R rfl trivial fun h => h
  have hallows : (Invariant.ofSites (Resolved site slot f owner) False False).toSimulation.Allows w f :=
    fun _ _ _ _ => trivial
  have hcalls : (Invariant.ofSites (Resolved site slot f owner) False False).toSimulation.Permits w
      Node.isCall := ⟨.call 0 "" [], trivial, rfl⟩
  unfold pinnedDispatch
  split
  · rename_i p name args
    split
    · rename_i hp
      subst hp
      intro s s' hrel
      obtain ⟨rfl, hs⟩ := (Invariant.rel_iff fun _ h => h).mp hrel
      show (Invariant.ofSites _ _ _).toSimulation.Ends w _ (evalCall p name args c false ev s) _
      rw [evalCall_eq, bind_apply, resolveCall_of_resolved name args.length ev hs]
      exact Simulation.agrees_applyCallee L R hcalls rfl slot hallows (fun _ _ => trivial) rfl s s
        (Invariant.rel_self hs)
    · exact hother _
  · rename_i p name args
    split
    · rename_i hp
      subst hp
      show (Invariant.ofSites _ _ _).toSimulation.Agrees ev ev' w
        (evalReturn (some (.call p name args)) c) _
      rw [evalReturn_call]
      refine .bind L.toOrdered (L.enterNode ev ev') fun w₁ _ _ => ?_
      intro s s' hrel
      obtain ⟨rfl, hs⟩ := (Invariant.rel_iff fun _ h => h).mp hrel
      rw [bind_apply, resolveCall_of_resolved name args.length ev hs]
      exact Simulation.agrees_returnCallee L R hcalls rfl slot hallows (fun _ _ => trivial) s s
        (Invariant.rel_self hs)
    · exact hother _
  · exact hother _

end

/-! ## Histories -/

namespace Host

/-- The evaluators of the sessions, where a site of session `g` always calls one function. -/
def pinned (g site slot : Nat) (f : Function) (fuel k : Nat) : Evaluator :=
  if k = g then pinnedEvaluator site slot f fuel else evaluator fuel

/-- No other session than `g` is the last one that resolved a site. -/
def Undisturbed (g site : Nat) (host : Host) : Prop :=
  ∀ (k : Nat) (s : Session), k ≠ g → host.sessions[k]? = some s → host.sites.get? site s.id = none

instance (g site : Nat) (host : Host) : Decidable (host.Undisturbed g site) :=
  decidable_of_iff
    (∀ k < host.sessions.size, k ≠ g → ∀ s ∈ host.sessions[k]?, host.sites.get? site s.id = none)
    ⟨fun h k s hk hs => h k (Array.getElem?_eq_some_iff.mp hs).1 hk s hs,
      fun h k _ hk s hs => h k s hk hs⟩

/-- A site is undisturbed after each request of a history. -/
def StaysUndisturbed (fuel g site : Nat) (host : Host) : List Request → Prop
  | [] => True
  | r :: rs =>
    let next := (host.answer (fun _ => evaluator fuel) r).2
    next.Undisturbed g site ∧ next.StaysUndisturbed fuel g site rs

instance instDecidableStaysUndisturbed (fuel g site : Nat) (host : Host) (rs : List Request) :
    Decidable (host.StaysUndisturbed fuel g site rs) :=
  match rs with
  | [] => .isTrue trivial
  | r :: rs =>
    have : Decidable ((host.answer (fun _ => evaluator fuel) r).2.StaysUndisturbed fuel g site rs) :=
      instDecidableStaysUndisturbed fuel g site _ rs
    inferInstanceAs (Decidable (_ ∧ _))

/-- A site has resolved to a function in session `g`. -/
def HasResolved (host : Host) (g site slot : Nat) (f : Function) : Prop :=
  ∃ s, host.sessions[g]? = some s ∧ Resolved site slot f (g + 1) host.sites s.id s.catalog

variable {host : Host} {g site slot : Nat} {f : Function}

/-- What is changed in a session from outside, other than its number and what is in the slots of its
catalog, leaves a site resolved. -/
theorem HasResolved.change (h : host.HasResolved g site slot f) (k : Nat) {m : Session → Session}
    (hid : ∀ s, (m s).id = s.id)
    (hslot : ∀ s, s.catalog.get? slot = some f → (m s).catalog.get? slot = some f) :
    (host.change k m).HasResolved g site slot f := by
  obtain ⟨s, hs, howner, hget, hf⟩ := h
  by_cases hk : k = g
  · subst hk
    refine ⟨m s, ?_, ?_, hget, hslot s hf⟩
    · simp only [Host.change, Array.getElem?_modify, hs]
      rfl
    · rw [hid]
      exact howner
  · refine ⟨s, ?_, howner, hget, hf⟩
    simp only [Host.change, Array.getElem?_modify, if_neg hk]
    exact hs

/-- In the session itself, a site that has resolved is as good as one that always calls its function,
and stays so. -/
theorem HasResolved.run_self (h : host.HasResolved g site slot f) (fuel : Nat) {x : Exec Value}
    (hx : Simulation.Fair x) :
    host.runWith g (evaluator fuel) x = host.runWith g (pinnedEvaluator site slot f fuel) x ∧
      (host.runWith g (evaluator fuel) x).2.HasResolved g site slot f := by
  obtain ⟨s, hs, hresolved⟩ := h
  have K := (resolved_kept site slot f (g + 1)).kept False False
  have hends := hx _ K.lawful (ready_pinned fuel) (w := ()) trivial (fun _ => trivial)
    ⟨host.heap, host.sites, [], s⟩ _ (Invariant.rel_self hresolved)
  simp only [runWith, hs]
  rcases Invariant.eq_of_ends (fun _ h => h) hends with ⟨hlax, _⟩ | ⟨heq, _, _, hholds, _⟩
  · exact hlax.elim
  rw [← heq]
  generalize x (evaluator fuel) ⟨host.heap, host.sites, [], s⟩ = r at hholds
  refine ⟨rfl, r.2.session, ?_, hholds⟩
  rw [getElem?_setSession _ hs, if_pos rfl]

/-- In another session nothing happens to the site, if that session does not resolve it. -/
theorem HasResolved.run_other (h : host.HasResolved g site slot f) (hnumbered : host.Numbered)
    {k : Nat} (hk : k ≠ g) (fuel : Nat) {x : Exec Value} (hx : Simulation.Fair x)
    (hu : (host.runWith k (evaluator fuel) x).2.Undisturbed g site) :
    (host.runWith k (evaluator fuel) x).2.HasResolved g site slot f := by
  obtain ⟨s, hs, howner, hget, hf⟩ := h
  unfold runWith at hu ⊢
  cases ht : host.sessions[k]? with
  | none => exact ⟨s, hs, howner, hget, hf⟩
  | some t =>
    rw [ht] at hu
    dsimp only at hu ⊢
    have K := (@resolvedBefore_kept site slot (g + 1) (k + 1)).kept False False
    have hends := hx _ K.lawful (Simulation.ready_evaluator K.lawful (fun h => h) fuel)
      (w := ()) trivial (fun _ => trivial) ⟨host.heap, host.sites, [], t⟩ _
      (Invariant.rel_self ⟨hnumbered k t ht, Or.inl hget⟩)
    rcases Invariant.eq_of_ends (fun _ h => h) hends with ⟨hlax, _⟩ | ⟨_, _, _, hholds, _⟩
    · exact hlax.elim
    generalize x (evaluator fuel) ⟨host.heap, host.sites, [], t⟩ = r at hholds hu
    obtain ⟨hid, hsites⟩ := hholds
    have hnone := hu k r.2.session hk (by
      show (host.sessions.setIfInBounds k r.2.session)[k]? = _
      rw [getElem?_setSession _ ht, if_pos rfl])
    rw [hid] at hnone
    refine ⟨s, ?_, howner, ?_, hf⟩
    · rw [getElem?_setSession _ ht, if_neg hk]
      exact hs
    · rcases hsites with hkept | hresolved
      · exact hkept
      · rw [hnone] at hresolved
        cases hresolved

/-- What is evaluated in any session. -/
theorem HasResolved.run (h : host.HasResolved g site slot f) (hnumbered : host.Numbered)
    (k fuel : Nat) {x : Exec Value} (hx : Simulation.Fair x)
    (hu : (host.runWith k (evaluator fuel) x).2.Undisturbed g site) :
    host.runWith k (evaluator fuel) x = host.runWith k (pinned g site slot f fuel k) x ∧
      (host.runWith k (evaluator fuel) x).2.HasResolved g site slot f := by
  unfold pinned
  by_cases hk : k = g
  · subst hk
    rw [if_pos rfl]
    exact h.run_self fuel hx
  · rw [if_neg hk]
    exact ⟨rfl, h.run_other hnumbered hk fuel hx hu⟩

/-- Each request leaves the site resolved, and its answer does not tell whether the site is asked. -/
theorem HasResolved.answer (h : host.HasResolved g site slot f) (hnumbered : host.Numbered)
    (fuel : Nat) (r : Request)
    (hu : (host.answer (fun _ => evaluator fuel) r).2.Undisturbed g site) :
    host.answer (fun _ => evaluator fuel) r = host.answer (pinned g site slot f fuel) r ∧
      (host.answer (fun _ => evaluator fuel) r).2.HasResolved g site slot f := by
  cases r with
  | evaluate k e => exact h.run hnumbered k fuel (Simulation.fair_evaluate e) hu
  | callFunction k name args =>
    exact h.run hnumbered k fuel (Simulation.fair_callFunction name args) hu
  | addFunction k m =>
    exact ⟨rfl, h.change k (fun _ => rfl) fun _ hslot => Catalog.get?_add m hslot⟩
  | removeFunction k name arity =>
    refine ⟨rfl, h.change k (fun _ => rfl) fun s hslot => ?_⟩
    exact (Catalog.get?_remove s.catalog name arity slot).trans hslot
  | setParser k _ | cancel k _ | takeOutput k =>
    exact ⟨rfl, h.change k (fun _ => rfl) fun _ hslot => hslot⟩
  | prepare n =>
    obtain ⟨s, hs, howner, hget, hf⟩ := h
    exact ⟨rfl, s, hs, howner, (CallSites.get?_reserve _ _ _ _).trans hget, hf⟩
  | start settings =>
    obtain ⟨s, hs, hresolved⟩ := h
    exact ⟨rfl, s, getElem?_start hs settings, hresolved⟩

/-- **First call wins.**  Once a site has resolved to a function in a session, and as long as no other
session resolves the site, every call at the site in that session calls this function: the history is
answered as if the site were never asked, whatever is evaluated in the sessions, and whatever is
replaced and removed in their catalogs. -/
theorem serve_pinned (fuel : Nat) (h : host.HasResolved g site slot f) (hnumbered : host.Numbered)
    (rs : List Request) (hu : host.StaysUndisturbed fuel g site rs) :
    host.serve (fun _ => evaluator fuel) rs = host.serve (pinned g site slot f fuel) rs ∧
      (host.serve (fun _ => evaluator fuel) rs).2.HasResolved g site slot f := by
  induction rs generalizing host with
  | nil => exact ⟨rfl, h⟩
  | cons r rs ih =>
    obtain ⟨hnext, hrest⟩ := hu
    -- one answer is the same and leaves the site resolved, so the rest of the history may begin there
    obtain ⟨heq, hresolved⟩ := h.answer hnumbered fuel r hnext
    obtain ⟨hserve, hend⟩ := ih hresolved (hnumbered.answer fuel r) hrest
    refine ⟨?_, hend⟩
    show ((host.answer _ r).1 :: ((host.answer _ r).2.serve _ rs).1,
        ((host.answer _ r).2.serve _ rs).2) =
      ((host.answer _ r).1 :: ((host.answer _ r).2.serve _ rs).1,
        ((host.answer _ r).2.serve _ rs).2)
    rw [← heq, ← hserve]

/-! ## Two sessions -/

/-- A native function that gives a constant. -/
def constantly (name : String) (n : Int32) : Function :=
  .routine ⟨name, .fixed [], .any, .native (.constant (.int n))⟩

/-- Two sessions with functions of one name, of which the first has called its own at site 0. -/
def sharedSite : Host :=
  (Host.empty.serve (fun _ => evaluator 10) [.start bare, .start bare, .prepare 2,
    .addFunction 0 (constantly "f" 1), .addFunction 1 (constantly "f" 2),
    .evaluate 0 (.call 0 "f" [])]).2

/-- The first session goes on calling its function after it has been replaced and removed. -/
theorem serve_pinned_sharedSite :
    let rs : List Request := [.addFunction 0 (constantly "f" 3), .evaluate 1 (.call 1 "f" []),
      .removeFunction 0 "f" (.exact 0), .evaluate 0 (.call 0 "f" [])]
    sharedSite.HasResolved 0 0 1 (constantly "f" 1) ∧ sharedSite.Numbered ∧
      sharedSite.StaysUndisturbed 10 0 0 rs ∧
      sharedSite.serve (fun _ => evaluator 10) rs =
        sharedSite.serve (pinned 0 0 1 (constantly "f" 1) 10) rs := by
  intro rs
  have hresolved : sharedSite.HasResolved 0 0 1 (constantly "f" 1) :=
    ⟨_, rfl, by decide +kernel, by decide +kernel, by with_unfolding_all rfl⟩
  have hnumbered : sharedSite.Numbered := numbered_empty.serve 10 _
  have hundisturbed : sharedSite.StaysUndisturbed 10 0 0 rs := by decide +kernel
  exact ⟨hresolved, hnumbered, hundisturbed,
    (serve_pinned 10 hresolved hnumbered rs hundisturbed).1⟩

/-- What a site has resolved to is lost when another session resolves the site: the first session then
calls the function that its name leads to by now. -/
theorem sharedSite_forgets :
    sharedSite.HasResolved 0 0 1 (constantly "f" 1) ∧
      ((sharedSite.serve (fun _ => evaluator 10) [.evaluate 1 (.call 0 "f" []),
          .addFunction 0 (constantly "f" 3), .evaluate 0 (.call 0 "f" [])]).1.map fun
        | .value v => v
        | _ => .null) = [.int 2, .null, .int 3] :=
  ⟨⟨_, rfl, by decide +kernel, by decide +kernel, by with_unfolding_all rfl⟩, by decide +kernel⟩

end Host
end TreeScript
