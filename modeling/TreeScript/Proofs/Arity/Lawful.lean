import TreeScript.Proofs.Arity.State
import TreeScript.Proofs.Logic.Core

/-
# Two evaluators in sound states

Two evaluators with the same bound whose traces are silent where a body begins with as many arguments as it
has parameters: from a sound state whatever they evaluate ends alike and in a sound state.  This is a
lawful logic (`Logic.lawful_arity`).  Its worlds are lists of labels, one for each site that there is.
-/

namespace TreeScript

open Exec

/-- Evaluators with the same bound, whose traces are silent where a body begins with as many arguments as it
has parameters. -/
structure Evaluator.Twins (ev ev' : Evaluator) : Prop where
  fuel : ev.fuel = ev'.fuel
  silent : ∀ {ps : List Param} {args : List Value} (s : State), ps.length = args.length →
    ev.trace ps args s = (.value (), s) ∧ ev'.trace ps args s = (.value (), s)

/-- Evaluations end alike, in a sound state with no fewer labels, and give a value of a kind if they give
one. -/
structure EndsAlike (owner : Nat) (before : CallSites) {α : Type} (Q : List CallLabel → α → Prop)
    (labels labels' : List CallLabel) (r r' : Outcome α × State) : Prop where
  grown : labels <+: labels'
  eq : r = r'
  sound : r.2.Sound owner before labels'
  value : ∀ a, r.1 = .value a → Q labels' a

/-- The logic of two evaluators that end alike in sound states. -/
def Logic.arity (owner : Nat) (before : CallSites) (ev ev' : Evaluator) : Logic where
  World := List CallLabel
  le := (· <+: ·)
  good := State.Sound owner before
  holds labels x Q := ∀ s, s.Sound owner before labels →
    ∃ labels', EndsAlike owner before Q labels labels' (x ev s) (x ev' s)
  code := Labelled
  cls labels c := c.Built (Labelled labels)
  routine labels r n := r.Takes (Labelled labels) n
  function labels f n := f.Takes (Labelled labels) n
  enters ps args := ps.length = args.length

/-- The nodes in a class definition that is labelled are labelled. -/
theorem Labelled.codes {labels : List CallLabel} {d : ClassDecl Node}
    (h : Labelled labels (.classDef d)) : d.Codes (Labelled labels) := by
  obtain ⟨name, supers, fields, methods, ctors⟩ := d
  have hcalls : ∀ c, c ∈ callsFields fields ++ (callsFunctions methods ++ callsConstructors ctors) →
      labels[c.1]? = some c.2 := fun c hc => h c (by rwa [Node.calls, callsClass])
  refine ⟨fun f hf e he c hc => ?_, fun m hm c hc => ?_, fun d hd c hc => ?_⟩ <;> refine hcalls c ?_
  · rw [callsFields_eq]
    refine List.mem_append_left _ (List.mem_flatMap.mpr ⟨f, hf, ?_⟩)
    rwa [he, callsOption]
  · rw [callsFunctions_eq]
    exact List.mem_append_right _ (List.mem_append_left _ (List.mem_flatMap.mpr ⟨m, hm, hc⟩))
  · rw [callsConstructors_eq]
    exact List.mem_append_right _ (List.mem_append_right _ (List.mem_flatMap.mpr ⟨d, hd, hc⟩))

namespace Logic

variable {owner : Nat} {before : CallSites} {ev ev' : Evaluator} {labels : List CallLabel}
variable {α β : Type}

/-! ## The rules -/

/-- A step that asks no evaluator. -/
theorem arity_step {x : Exec α} {Q : List CallLabel → α → Prop} (hx : ∀ s, x ev s = x ev' s)
    (h : ∀ s, s.Sound owner before labels → ∃ labels', labels <+: labels' ∧
      (x ev s).2.Sound owner before labels' ∧ ∀ a, (x ev s).1 = .value a → Q labels' a) :
    (arity owner before ev ev').holds labels x Q := by
  intro s hs
  obtain ⟨labels', hgrown, hsound, hvalue⟩ := h s hs
  exact ⟨labels', hgrown, hx s, hsound, hvalue⟩

/-- A step that asks no evaluator and needs no further labels. -/
theorem arity_keeps {x : Exec α} (hx : ∀ s, x ev s = x ev' s)
    (h : ∀ s, s.Sound owner before labels → (x ev s).2.Sound owner before labels) :
    (arity owner before ev ev').KeepsAt labels x :=
  arity_step hx fun s hs => ⟨labels, List.prefix_refl labels, h s hs, fun _ _ => trivial⟩

theorem arity_bind {x : Exec α} {f : α → Exec β} {Q : List CallLabel → α → Prop}
    {Q' : List CallLabel → β → Prop} (hx : (arity owner before ev ev').holds labels x Q)
    (hf : ∀ labels', labels <+: labels' → ∀ a, Q labels' a →
      (arity owner before ev ev').holds labels' (f a) Q') :
    (arity owner before ev ev').holds labels (x >>= f) Q' := by
  intro s hs
  obtain ⟨labels₁, h₁⟩ := hx s hs
  obtain ⟨hgrown, heq, hsound, hvalue⟩ := h₁
  rw [bind_apply, bind_apply, ← heq]
  generalize x ev s = r at hsound hvalue
  obtain ⟨a | g | k, t⟩ := r
  · obtain ⟨labels₂, h₂⟩ := hf labels₁ hgrown a (hvalue a rfl) t hsound
    exact ⟨labels₂, hgrown.trans h₂.grown, h₂.eq, h₂.sound, h₂.value⟩
  · exact ⟨labels₁, hgrown, rfl, hsound, fun _ h => by cases h⟩
  · exact ⟨labels₁, hgrown, rfl, hsound, fun _ h => by cases h⟩

theorem arity_asCall {x : Exec Value} (hx : (arity owner before ev ev').KeepsAt labels x)
    (name : String) : (arity owner before ev ev').KeepsAt labels (asCall name x) := by
  intro s hs
  rw [asCall_apply, asCall_apply]
  cases s.session.calls.push name with
  | error e => exact ⟨labels, List.prefix_refl labels, rfl, hs, fun _ _ => trivial⟩
  | ok calls =>
    have hcalls : (s.withCalls calls).Sound owner before labels := State.Sound.congr (s := s) rfl hs
    obtain ⟨labels', h⟩ := hx (s.withCalls calls) hcalls
    have hend : (endCall (x ev (s.withCalls calls))).2.Sound owner before labels' :=
      State.Sound.congr (s := (x ev (s.withCalls calls)).2) rfl h.sound
    exact ⟨labels', h.grown, congrArg endCall h.eq, hend, fun _ _ => trivial⟩

theorem arity_handle {x : Exec α} {take : Signal → Option (Exec α)}
    (hx : (arity owner before ev ev').KeepsAt labels x)
    (htake : ∀ labels', labels <+: labels' → ∀ g y, take g = some y →
      (arity owner before ev ev').KeepsAt labels' y) :
    (arity owner before ev ev').KeepsAt labels (handle x take) := by
  intro s hs
  obtain ⟨labels₁, h₁⟩ := hx s hs
  obtain ⟨hgrown, heq, hsound, -⟩ := h₁
  unfold handle
  rw [← heq]
  generalize x ev s = r at hsound
  obtain ⟨a | g | k, t⟩ := r
  · exact ⟨labels₁, hgrown, rfl, hsound, fun _ _ => trivial⟩
  · dsimp only
    cases hg : take g with
    | none => exact ⟨labels₁, hgrown, rfl, hsound, fun _ _ => trivial⟩
    | some y =>
      obtain ⟨labels₂, h₂⟩ := htake labels₁ hgrown g y hg t hsound
      exact ⟨labels₂, hgrown.trans h₂.grown, h₂.eq, h₂.sound, h₂.value⟩
  · exact ⟨labels₁, hgrown, rfl, hsound, fun _ _ => trivial⟩

/-! ## Steps -/

/-- Soundness does not look at what a session counts, nor at its other settings. -/
theorem arity_modifySession {f : Session → Session}
    (h : ∀ s, ((f s).id, (f s).catalog, (f s).classes) = (s.id, s.catalog, s.classes)) :
    (arity owner before ev ev').Keeps (modifySession f) := by
  refine fun _ => arity_keeps (fun _ => rfl) fun s hs => ?_
  obtain ⟨hid, hrest⟩ := Prod.mk.inj (h s.session)
  obtain ⟨hcatalog, hclasses⟩ := Prod.mk.inj hrest
  have hsession : (f s.session).Sound (Labelled _) :=
    ⟨hcatalog ▸ hs.session.catalog, fun hc => hs.session.classes (hclasses ▸ hc)⟩
  exact hs.withSession hsession hid fun slot g hg => by rw [hcatalog]; exact hg

theorem arity_enterNode : (arity owner before ev ev').Keeps enterNode := by
  intro labels
  refine arity_keeps (fun s => by rw [enterNode_apply, enterNode_apply]) fun s hs => ?_
  have hmeter : ∀ m, (s.withMeter m).Sound owner before labels := fun m =>
    hs.withSession ⟨hs.session.catalog, hs.session.classes⟩ rfl fun _ _ hf => hf
  rw [enterNode_apply]
  split
  · exact hs
  · split
    · exact hmeter _
    · exact hmeter _

theorem arity_defineClass {d : ClassDecl Node} (hd : Labelled labels (.classDef d)) :
    (arity owner before ev ev').KeepsAt labels (do
      let s ← ofExcept (← session fun s => s.defineClass d)
      modifySession fun _ => s) := by
  refine arity_keeps (fun s => ?_) fun s hs => ?_ <;> simp only [bind_apply, session]
  · cases s.session.defineClass d <;> rfl
  · cases hdefined : s.session.defineClass d with
    | error e => exact hs
    | ok t =>
      obtain ⟨c, -, hadded⟩ := Session.exists_of_defineClass hdefined
      have hid : t.id = s.session.id := Session.addClass_eq (p := Session.id) (fun _ _ _ => rfl) hadded
      exact hs.withSession (hs.session.defineClass hd.codes hdefined) hid fun slot f hf =>
        Session.get?_addClass hadded hf

/-- A tree that is read gets sites of its own, and their labels. -/
theorem arity_reserve (e : Node) (labels : List CallLabel) :
    (arity owner before ev ev').holds labels (fun _ s =>
      (.value (e.numbered s.sites.next).1, s.withSites (s.sites.reserve (e.numbered s.sites.next).2)))
      Labelled := by
  refine arity_step (fun _ => rfl) fun s hs => ?_
  obtain ⟨hlabelled, hnext⟩ := labelled_numbered labels e
  have hgrown : labels <+: labels ++ e.calls.map Prod.snd := List.prefix_append _ _
  dsimp only
  rw [hs.length]
  refine ⟨_, hgrown, hs.reserve hgrown ?_, fun a ha => Outcome.value.inj ha ▸ hlabelled⟩
  rw [CallSites.next_reserve, hnext, hs.length]
  exact Nat.max_eq_right hgrown.length_le

/-- A call site resolves to a function that takes the arguments of the call. -/
theorem arity_resolveCall {site : Nat} {name : String} {args : List Node}
    (hcall : Labelled labels (.call site name args)) :
    (arity owner before ev ev').holds labels (resolveCall site name args.length)
      fun labels' p => p.2.Takes (Labelled labels') args.length := by
  refine arity_step (fun s => by rw [resolveCall_apply, resolveCall_apply]) fun s hs => ?_
  obtain ⟨hsound, hcallee⟩ := hs.resolveCall hcall.call ev
  refine ⟨labels, List.prefix_refl labels, hsound, fun callee h => ?_⟩
  obtain ⟨hf, hanswers⟩ := hcallee callee h
  exact (hsound.session.catalog.built hf).takes (Bool.and_eq_true_iff.mp hanswers).2

theorem coreRules_arity : (arity owner before ev ev').CoreRules where
  step f _ h _ _ := arity_step (fun _ => rfl) fun s hs =>
    ⟨_, List.prefix_refl _, hs.congr (h s hs).1, (h s hs).2⟩
  framed {_ _ _ before' _ _} hx hpassing s hs := by
    obtain ⟨labels', h⟩ := hx (before' s) (hs.congr (hpassing.core_before s))
    exact ⟨labels', h.grown, congrArg _ h.eq, h.sound.congr (hpassing.core_after s _),
      fun _ _ => trivial⟩

theorem rules_arity : (arity owner before ev ev').Rules where
  weaken h hQ s hs := by
    obtain ⟨labels', h⟩ := h s hs
    exact ⟨labels', h.grown, h.eq, h.sound, fun a ha => hQ _ a (h.value a ha)⟩
  step f _ h _ := arity_step (fun _ => rfl) fun s hs =>
    ⟨_, List.prefix_refl _, hs.congr (State.core_of_kernel (h s hs).1), (h s hs).2⟩
  bind := arity_bind
  framed hx htransparent := coreRules_arity.framed hx htransparent.toPassing
  asCall := arity_asCall
  handle hx _ htake := arity_handle hx htake

theorem worldLaws_arity : (arity owner before ev ev').WorldLaws where
  le_refl := List.prefix_refl
  le_trans h₁ h₂ := h₁.trans h₂
  code_mono h he := he.mono h
  cls_mono h hc := hc.mono fun _ he => he.mono h
  routine_mono h hr := hr.mono fun _ he => he.mono h
  function_mono h hf := hf.mono fun _ he => he.mono h

theorem stateLaws_arity : (arity owner before ev ev').StateLaws where
  classOf hs i := hs.heap.classOf i
  callable {_ s} hs i := by
    have hk := hs.heap.callable i
    cases hcallable : s.heap.callable i with
    | function f =>
      rw [hcallable] at hk
      exact fun n hn => Function.Built.takes hk hn
    | lambda _ _ _ | deferred _ _ =>
      rw [hcallable] at hk
      exact hk
  coroutine hs i := ⟨(hs.heap.coroutine i).body, (hs.heap.coroutine i).length⟩
  findClass hs hc := hs.session.classes hc
  callee hs hf :=
    have hf := hs.session.catalog.callee hf
    (hs.session.catalog.built hf.1).takes hf.2.2

theorem arity_entering (htwins : ev.Twins ev') {ps : List Param} {args : List Value}
    (h : ps.length = args.length) : (arity owner before ev ev').Keeps (entering ps args) := by
  have hsilent := fun s => htwins.silent s h
  refine fun _ => arity_keeps (fun s => (hsilent s).1.trans (hsilent s).2.symm) fun s hs => ?_
  show (ev.trace ps args s).2.Sound owner before _
  rw [(hsilent s).1]
  exact hs

theorem arity_throwing (v : Value) : (arity owner before ev ev').Keeps (throwing v) := by
  refine fun _ => arity_keeps (fun s => by rw [throwing_apply, throwing_apply]) fun s hs => ?_
  rw [throwing_apply]
  exact hs

theorem arity_classForFailure (e : EvalError) (w : List CallLabel) :
    (arity owner before ev ev').holds w (classForFailure e) (arity owner before ev ev').cls := by
  refine arity_step (fun s => by rw [classForFailure_apply, classForFailure_apply]) fun s hs => ?_
  rw [classForFailure_apply]
  refine ⟨w, List.prefix_refl w, hs, fun cls h => ?_⟩
  exact hs.session.classes (eq_some_of_classOrFailure h)

theorem lawful_arity (htwins : ev.Twins ev') : (arity owner before ev ev').Lawful where
  toWorldLaws := worldLaws_arity
  toStateLaws := stateLaws_arity
  toRules := rules_arity
  part he hp := he.part hp
  lambda he := he.lambda
  default hc hf he := hc.default hf he
  method hc hm := hc.takes_method hm
  constructor hc hd := hc.takes_constructor hd
  body hr he := hr.code he
  routine hf := by
    cases hf
    assumption
  constructed hf := by
    cases hf with
    | constructor hc hd => exact ⟨hc, hd⟩
  entersRoutine hr hbody := hr.length hbody
  entersLambda h := h
  fuel _ := arity_keeps (fun s => congrArg (fun n => (Outcome.value n, s)) htwins.fuel) fun _ hs => hs
  enterNode := arity_enterNode
  entering := arity_entering htwins
  mark := arity_modifySession fun _ => rfl
  newObject around hc := arity_keeps (fun _ => rfl) fun _ hs =>
    hs.withHeap (hs.heap.newObject hc around)
  newCoroutine origin hr hbody := arity_keeps (fun _ => rfl) fun _ hs => by
    have hlength := hr.length fun action h => by cases hbody.symm.trans h
    exact hs.withHeap (hs.heap.newCoroutine _ (hr.code (by rw [hbody]; rfl)) hlength origin)
  restart i _ := arity_keeps (fun _ => rfl) fun _ hs => hs.withHeap (hs.heap.restart i)
  resumed := coreRules_arity.resumed worldLaws_arity stateLaws_arity rules_arity (arity_entering htwins)
  newCallable {_ k} hcode hk := arity_keeps (fun _ => rfl) fun _ hs => by
    refine hs.withHeap (hs.heap.newCallable ?_)
    cases k with
    | function f => exact absurd rfl (hcode f)
    | lambda _ _ _ | deferred _ _ => exact hk
  addFunction hd := arity_keeps (fun _ => rfl) fun _ hs =>
    hs.withSession (hs.session.addFunction (.routine (.ofDecl hd.function))) rfl fun _ _ hf =>
      Catalog.get?_add _ hf
  defineClass := arity_defineClass
  reserve := arity_reserve
  resolveCall := arity_resolveCall
  throwing := arity_throwing
  classForFailure := arity_classForFailure

end Logic
end TreeScript
