import TreeScript.Proofs.Arity.Checked

/-
# Calls are answered by functions that fit

A host numbers the trees that it is given and evaluates them in any of its sessions, which add and remove
functions and classes in between.  Whatever has happened, its code is labelled and built, and what a site
remembers for a session answers the label of the site (`Host.Sound`); of a new session no site remembers
anything.  So checking every call, and counting the arguments of every body that begins, changes no
answer (`Host.callees_fit`).
-/

namespace TreeScript

open Exec

/-! ## Hosts with what they are given -/

/-- The calls in a node are calls in trees. -/
def Node.From (trees : List Node) (e : Node) : Prop := ∀ c ∈ e.calls, c ∈ callsAll trees

namespace Request

/-- The code in a request is made of nodes with a property. -/
def Made (ok : Node → Prop) : Request → Prop
  | .evaluate _ e => ok e
  | .addFunction _ f => f.Built ok
  | _ => True

theorem Made.mono {ok ok' : Node → Prop} (hok : ∀ e, ok e → ok' e) {r : Request} (h : r.Made ok) :
    r.Made ok' := by
  cases r with
  | evaluate k e => exact hok e h
  | addFunction k f => exact Function.Built.mono hok h
  | _ => trivial

end Request

/-- The session with a class, if its name has not been given. -/
def Session.withClass (c : ClassDef) (s : Session) : Session :=
  match s.addClass c with
  | .ok t => t
  | .error _ => s

namespace Host

/-- The hosts that there are, with the trees that they have numbered.  Besides answering requests, a host
may add classes to its sessions and make values of functions. -/
inductive Reached : Host → List Node → Prop
  | empty : Reached .empty []
  | number {host : Host} {trees : List Node} (e : Node) : Reached host trees →
      Reached (host.number e).2 ((host.number e).1 :: trees)
  | answer {host : Host} {trees : List Node} (fuel : Nat) {r : Request} : Reached host trees →
      r.Made (Node.From trees) → Reached (host.answer (fun _ => evaluator fuel) r).2 trees
  | addClass {host : Host} {trees : List Node} (k : Nat) {c : ClassDef} : Reached host trees →
      c.Built (Node.From trees) → Reached (host.change k (·.withClass c)) trees
  | newCallable {host : Host} {trees : List Node} {f : Function} : Reached host trees →
      f.Built (Node.From trees) →
      Reached { host with heap := (host.heap.newCallable (.function f)).2 } trees

/-! ## Soundness -/

/-- The code of a host is built and labelled, and what its sites remember for its sessions answers their
labels. -/
structure Sound (labels : List CallLabel) (host : Host) : Prop where
  length : host.sites.next = labels.length
  heap : host.heap.Sound (Labelled labels)
  numbered : host.Numbered
  session : ∀ {k : Nat} {s : Session}, host.sessions[k]? = some s → s.Sound (Labelled labels)
  recalls : ∀ {k : Nat} {s : Session}, host.sessions[k]? = some s → s.Recalls labels host.sites
  /-- Sites remember nothing for sessions that have not been started. -/
  started : ∀ site id slot, host.sites.get? site id = some slot → id ≤ host.sessions.size

variable {host : Host} {labels labels' : List CallLabel}

theorem sound_empty : Host.empty.Sound [] where
  length := rfl
  heap := Heap.sound_empty fun c hc => by
    change c ∈ (Node.literal .null).calls at hc
    rw [Node.calls] at hc
    cases hc
  numbered := numbered_empty
  session h := by cases h
  recalls h := by cases h
  started _ _ _ h := by cases h

/-- Sites that are added are labelled. -/
theorem Sound.reserve (hs : host.Sound labels) {n : Nat} (h : labels <+: labels')
    (hn : (host.sites.reserve n).next = labels'.length) :
    Sound labels' { host with sites := host.sites.reserve n } where
  length := hn
  heap := hs.heap.mono fun _ he => he.mono h
  numbered := hs.numbered
  session hk := (hs.session hk).mono fun _ he => he.mono h
  recalls hk site slot hslot := by
    rw [CallSites.get?_reserve] at hslot
    exact (hs.recalls hk).mono h site slot hslot
  started site id slot hslot := by
    rw [CallSites.get?_reserve] at hslot
    exact hs.started site id slot hslot

/-- A session is changed and keeps its number and what is in the slots of its catalog. -/
theorem Sound.change (hs : host.Sound labels) (k : Nat) {m : Session → Session}
    (hm : ∀ s, s.Sound (Labelled labels) → (m s).Sound (Labelled labels)) (hid : ∀ s, (m s).id = s.id)
    (hcatalog : ∀ s slot f, s.catalog.get? slot = some f → (m s).catalog.get? slot = some f) :
    (host.change k m).Sound labels := by
  have hget : ∀ {j : Nat} {t : Session}, (host.change k m).sessions[j]? = some t →
      host.sessions[j]? = some t ∨ ∃ s, host.sessions[j]? = some s ∧ t = m s := by
    intro j t ht
    simp only [Host.change, Array.getElem?_modify] at ht
    split at ht
    · obtain ⟨s, hj, rfl⟩ := Option.map_eq_some_iff.mp ht
      exact .inr ⟨s, hj, rfl⟩
    · exact .inl ht
  refine ⟨hs.length, hs.heap, fun j t ht => ?_, fun ht => ?_, fun ht => ?_, fun site id slot h => ?_⟩
  · rcases hget ht with hj | ⟨s, hj, rfl⟩
    · exact hs.numbered j t hj
    · exact (hid s).trans (hs.numbered j s hj)
  · rcases hget ht with hj | ⟨s, hj, rfl⟩
    · exact hs.session hj
    · exact hm s (hs.session hj)
  · rcases hget ht with hj | ⟨s, hj, rfl⟩
    · exact hs.recalls hj
    · exact (hs.recalls hj).of_catalog (hid s) (hcatalog s)
  · exact Nat.le_trans (hs.started site id slot h) (Nat.le_of_eq (Array.size_modify ..).symm)

/-- The declaration of the class of exceptions has no calls. -/
theorem codes_exceptionDecl (labels : List CallLabel) : exceptionDecl.Codes (Labelled labels) := by
  refine ⟨fun f hf e he => ?_, fun _ h => (by cases h), fun d hd c hc => ?_⟩
  · cases List.mem_singleton.mp hf
    cases he
  · cases List.mem_singleton.mp hd
    rw [Node.calls, Node.calls] at hc
    cases hc

theorem Sound.start (hs : host.Sound labels) (settings : Settings) : (host.start settings).Sound labels := by
  refine ⟨hs.length, ⟨hs.heap.classOf, hs.heap.callable, hs.heap.coroutine⟩, fun k t ht => ?_,
    fun ht => ?_, fun ht site slot hslot => ?_, fun site id slot h => ?_⟩
  · rcases of_getElem?_start ht with hk | ⟨rfl, rfl⟩
    · exact hs.numbered k t hk
    · exact Session.id_new _ _ settings
  · rcases of_getElem?_start ht with hk | ⟨rfl, rfl⟩
    · exact hs.session hk
    · exact Session.sound_new (codes_exceptionDecl labels) _ _ settings
  · rcases of_getElem?_start ht with hk | ⟨rfl, rfl⟩
    · exact hs.recalls hk site slot hslot
    · rw [Session.id_new] at hslot
      have hle := hs.started site _ slot hslot
      omega
  · have hle := hs.started site id slot h
    show id ≤ (host.sessions.push _).size
    rw [Array.size_push]
    omega

/-- An evaluation that ends alike with two evaluators in sound states is answered alike, and leaves the host
sound. -/
theorem Sound.run (hs : host.Sound labels) (k : Nat) {ev ev' : Evaluator} {x : Exec Value}
    (hx : (Logic.arity (k + 1) host.sites ev ev').KeepsAt labels x) :
    host.runWith k ev x = host.runWith k ev' x ∧
      ∃ labels', labels <+: labels' ∧ (host.runWith k ev x).2.Sound labels' := by
  unfold runWith
  cases hk : host.sessions[k]? with
  | none => exact ⟨rfl, labels, List.prefix_refl labels, hs⟩
  | some s =>
    have hstate : State.Sound (k + 1) host.sites labels ⟨host.heap, host.sites, [], s⟩ :=
      ⟨hs.length, hs.heap, hs.session hk, hs.numbered k s hk, hs.recalls hk, fun _ _ _ _ h => h⟩
    obtain ⟨labels', hends⟩ := hx _ hstate
    have hsound := hends.sound
    dsimp only
    rw [← hends.eq]
    generalize x ev ⟨host.heap, host.sites, [], s⟩ = r at hsound
    obtain ⟨hlt, -⟩ := Array.getElem?_eq_some_iff.mp hk
    have hget : ∀ {j : Nat} {t : Session}, (host.sessions.setIfInBounds k r.2.session)[j]? = some t →
        k = j ∧ t = r.2.session ∨ k ≠ j ∧ host.sessions[j]? = some t := by
      intro j t ht
      rw [getElem?_setSession _ hk] at ht
      split at ht
      · rename_i hj
        cases ht
        exact .inl ⟨hj, rfl⟩
      · rename_i hj
        exact .inr ⟨hj, ht⟩
    refine ⟨rfl, labels', hends.grown, hsound.length, hsound.heap, fun j t ht => ?_, fun ht => ?_,
      fun ht => ?_, fun site id slot h => ?_⟩
    · rcases hget ht with ⟨rfl, rfl⟩ | ⟨-, hj⟩
      · exact hsound.own
      · exact hs.numbered j t hj
    · rcases hget ht with ⟨rfl, rfl⟩ | ⟨-, hj⟩
      · exact hsound.session
      · exact (hs.session hj).mono fun _ he => he.mono hends.grown
    · rcases hget ht with ⟨rfl, rfl⟩ | ⟨hne, hj⟩
      · exact hsound.recalls
      · intro site slot hslot
        -- what is left for another session was there before
        have hid := hs.numbered _ _ hj
        have hbefore := hsound.others site _ slot (by omega) hslot
        exact (hs.recalls hj).mono hends.grown site slot hbefore
    · rw [Array.size_setIfInBounds]
      by_cases hid : id = k + 1
      · omega
      · exact hs.started site id slot (hsound.others site id slot hid h)

/-! ## Requests -/

/-- The trees that a host has numbered are labelled. -/
theorem labelled_of_from {trees : List Node} (htrees : ∀ t ∈ trees, Labelled labels t) {e : Node}
    (he : e.From trees) : Labelled labels e := by
  intro c hc
  have hmem := he c hc
  rw [callsAll_eq] at hmem
  obtain ⟨t, ht, hct⟩ := List.mem_flatMap.mp hmem
  exact htrees t ht c hct

/-- A tree that is numbered is labelled from then on. -/
theorem Sound.number (hs : host.Sound labels) (e : Node) :
    ∃ labels', labels <+: labels' ∧ (host.number e).2.Sound labels' ∧
      Labelled labels' (host.number e).1 := by
  obtain ⟨hlabelled, hnext⟩ := labelled_numbered labels e
  have hgrown : labels <+: labels ++ e.calls.map Prod.snd := List.prefix_append _ _
  rw [← hs.length] at hlabelled hnext
  refine ⟨_, hgrown, hs.reserve (n := (e.numbered host.sites.next).2) hgrown ?_, hlabelled⟩
  rw [CallSites.next_reserve, hnext, hs.length]
  exact Nat.max_eq_right hgrown.length_le

/-- Requests are answered alike whether or not calls are checked, and leave the host sound. -/
theorem Sound.answer (hs : host.Sound labels) {r : Request}
    (hr : r.Made (Labelled labels)) (fuel : Nat) (alarm : State → Outcome Unit × State) :
    host.answer (fun _ => evaluator fuel) r = host.answer (fun _ => checked alarm fuel) r ∧
      ∃ labels', labels <+: labels' ∧
        (host.answer (fun _ => evaluator fuel) r).2.Sound labels' := by
  have hsame : ∀ {host' : Host}, host'.Sound labels → ∃ labels', labels <+: labels' ∧
      host'.Sound labels' := fun h => ⟨labels, List.prefix_refl labels, h⟩
  cases r with
  | start settings => exact ⟨rfl, hsame (hs.start settings)⟩
  | prepare n =>
    -- sites without a tree get any label
    have hgrown : labels <+: labels ++ List.replicate (n - labels.length) ("", 0) :=
      List.prefix_append _ _
    refine ⟨rfl, _, hgrown, hs.reserve hgrown ?_⟩
    rw [CallSites.next_reserve, hs.length, List.length_append, List.length_replicate]
    omega
  | evaluate k e => exact hs.run k (keeps_evaluate (ready_checked _ _ alarm fuel) hr)
  | callFunction k name args =>
    exact hs.run k (keeps_callFunction (ready_checked _ _ alarm fuel) name args labels)
  | addFunction k f =>
    exact ⟨rfl, hsame (hs.change k (fun _ h => h.addFunction hr) (fun _ => rfl) fun _ _ _ hg =>
      Catalog.get?_add f hg)⟩
  | removeFunction k name arity =>
    refine ⟨rfl, hsame (hs.change k (fun _ h => ?_) (fun _ => rfl) fun _ _ _ hg => ?_)⟩
    · exact ⟨h.catalog.remove name arity, h.classes⟩
    · exact (Catalog.get?_remove ..).trans hg
  | setParser k _ | cancel k _ | takeOutput k =>
    exact ⟨rfl, hsame (hs.change k (fun _ h => ⟨h.catalog, h.classes⟩) (fun _ => rfl) fun _ _ _ hg => hg)⟩

theorem Sound.addClass (hs : host.Sound labels) (k : Nat) {c : ClassDef}
    (hc : c.Built (Labelled labels)) : (host.change k (·.withClass c)).Sound labels := by
  refine hs.change k (fun s h => ?_) (fun s => ?_) fun s slot f hf => ?_ <;>
    dsimp only [Session.withClass] <;> split
  · rename_i hadd
    exact h.addClass hc hadd
  · exact h
  · rename_i hadd
    exact Session.addClass_eq (p := Session.id) (fun _ _ _ => rfl) hadd
  · rfl
  · rename_i hadd
    exact Session.get?_addClass hadd hf
  · exact hf

/-- Every host that there is is sound, and the trees that it has numbered are labelled. -/
theorem Reached.sound {trees : List Node} (h : host.Reached trees) :
    ∃ labels, host.Sound labels ∧ ∀ t ∈ trees, Labelled labels t := by
  induction h with
  -- labels are only ever added, so that what has been labelled stays so
  | empty => exact ⟨[], sound_empty, fun _ h => by cases h⟩
  | number e _ ih =>
    obtain ⟨labels, hs, htrees⟩ := ih
    obtain ⟨labels', hgrown, hs', he⟩ := hs.number e
    refine ⟨labels', hs', fun t ht => ?_⟩
    rcases List.mem_cons.mp ht with rfl | ht
    · exact he
    · exact (htrees t ht).mono hgrown
  | answer fuel _ hr ih =>
    obtain ⟨labels, hs, htrees⟩ := ih
    obtain ⟨-, labels', hgrown, hs'⟩ :=
      hs.answer (hr.mono fun _ he => labelled_of_from htrees he) fuel fun s => (.value (), s)
    exact ⟨labels', hs', fun t ht => (htrees t ht).mono hgrown⟩
  | addClass k _ hc ih =>
    obtain ⟨labels, hs, htrees⟩ := ih
    exact ⟨labels, hs.addClass k (hc.mono fun _ he => labelled_of_from htrees he), htrees⟩
  | newCallable _ hf ih =>
    obtain ⟨labels, hs, htrees⟩ := ih
    have hbuilt : Callable.Built (Labelled labels) (.function _) :=
      Function.Built.mono (fun _ he => labelled_of_from htrees he) hf
    exact ⟨labels, ⟨hs.length, hs.heap.newCallable hbuilt, hs.numbered, hs.session, hs.recalls,
      hs.started⟩, htrees⟩

/-- Whatever a host is asked in turn about the trees that it has numbered. -/
theorem Reached.serve {trees : List Node} (h : host.Reached trees) (fuel : Nat) {rs : List Request}
    (hrs : ∀ r ∈ rs, r.Made (Node.From trees)) :
    (host.serve (fun _ => evaluator fuel) rs).2.Reached trees := by
  induction rs generalizing host with
  | nil => exact h
  | cons r rs ih =>
    refine ih (h.answer fuel (hrs r List.mem_cons_self)) fun r' hr' => ?_
    exact hrs r' (List.mem_cons_of_mem r hr')

/-- **Calls are answered by functions that fit.**  In every host that there is, whatever its sessions have
evaluated of the trees that it has numbered and whatever has been added to them and removed from them, a
request is answered as if every call were looked up in the catalog of the session, and made only if
the function there goes by the name that stands at the call site and takes as many arguments, and as if
the arguments were counted whenever a body begins and had to be as many as its parameters. -/
theorem callees_fit {trees : List Node} (h : host.Reached trees) {r : Request}
    (hr : r.Made (Node.From trees)) (fuel : Nat) (alarm : State → Outcome Unit × State) :
    host.answer (fun _ => evaluator fuel) r = host.answer (fun _ => checked alarm fuel) r := by
  obtain ⟨labels, hs, htrees⟩ := h.sound
  exact (hs.answer (hr.mono fun _ he => labelled_of_from htrees he) fuel alarm).1

/-- A call with one argument. -/
def oneCall : Node := .call 0 "f" [.literal (.int 7)]

/-- A function of the program that gives its argument. -/
def given : Function := .routine (.ofDecl ⟨"f", [⟨"x", .any⟩], .any, .var "x", false⟩)

/-- A native function of any number of arguments. -/
def listed : Function := .routine ⟨"f", .variadic, .any, .native .echo⟩

/-- Two sessions with functions of one name, which share a tree that the first has evaluated. -/
def sharedTree : Host :=
  ((Host.empty.number oneCall).2.serve (fun _ => evaluator 10) [.start bare, .start bare,
    .addFunction 0 given, .addFunction 1 listed, .evaluate 0 oneCall]).2

/-- The second session calls its own function where the first has called its own. -/
theorem callees_fit_sharedTree :
    sharedTree.Reached [oneCall] ∧ (Request.evaluate 1 oneCall).Made (Node.From [oneCall]) ∧
      sharedTree.answer (fun _ => evaluator 10) (.evaluate 1 oneCall) =
        sharedTree.answer (fun _ => checked (fun s => (.halted .outOfFuel, s)) 10)
          (.evaluate 1 oneCall) := by
  have hfrom : oneCall.From [oneCall] := by
    unfold Node.From
    decide
  have hgiven : given.Built (Node.From [oneCall]) := by
    refine .routine (.ofDecl fun c hc => ?_)
    rw [Node.calls] at hc
    cases hc
  have hlisted : listed.Built (Node.From [oneCall]) :=
    .routine (.variadic "f" .any fun _ h => by cases h)
  have hreached : sharedTree.Reached [oneCall] := by
    refine Reached.serve (.number oneCall .empty) 10 fun r hr => ?_
    simp only [List.mem_cons, List.not_mem_nil, or_false] at hr
    rcases hr with rfl | rfl | rfl | rfl | rfl
    · trivial
    · trivial
    · exact hgiven
    · exact hlisted
    · exact hfrom
  exact ⟨hreached, hfrom, callees_fit (r := .evaluate 1 oneCall) hreached hfrom 10 _⟩

end Host
end TreeScript
