import TreeScript.Proofs.Generators.Positions
import TreeScript.Proofs.Simulation.View
import TreeScript.Proofs.Simulation.Node
import TreeScript.Proofs.Storage

/-
# The body of a coroutine while it runs

While the body of a coroutine runs, its way back is only ever used up, and the coroutine is recorded as
running: nothing else can resume it.  What is evaluated on the way may be known to hold no nodes of
certain kinds.  Where it holds no `yield`, it raises none; where it holds nothing that takes a frame, it
leaves the way back as it is.  This is so whatever else is called, resumed and made meanwhile, so it is
stated as an invariant of all evaluations.

Native code of the host may evaluate nodes in the body of its caller.  What these hold is to be known
where the body may call functions.
-/

namespace TreeScript

open Exec

/-! ## What the host has given to a session -/

/-- The nodes that a function evaluates in the body of its caller are of a kind. -/
def Function.Evaluates (natives : Node → Prop) (f : Function) : Prop :=
  ∀ r node, f = .routine r → r.body = .native (.evaluate node) → natives node

/-- The functions of the host evaluate certain nodes in the bodies of their callers, and templates are
read by certain parsers. -/
structure State.Hosted (reads : ExpressionParser → Prop) (natives : Node → Prop) (s : State) :
    Prop where
  catalog : ∀ slot f, s.session.catalog.get? slot = some f → f.Evaluates natives
  callable : ∀ i f, s.heap.callable i = .function f → f.Evaluates natives
  parser : ∀ parse, s.session.parser? = some parse → reads parse

/-- No function of the host suspends its caller. -/
abbrev State.Discreet (reads : ExpressionParser → Prop) (s : State) : Prop :=
  s.Hosted reads (Node.YieldFree reads)

theorem Function.evaluates_of_isNative {natives : Node → Prop} {f : Function}
    (h : f.isNative = false) : f.Evaluates natives := by
  rintro r node rfl hbody
  obtain ⟨name, parameters, returns, body⟩ := r
  cases hbody
  cases h

namespace State.Hosted

variable {reads : ExpressionParser → Prop} {natives : Node → Prop} {s t : State}

/-- Only the catalog, the parser and the callables count. -/
theorem congr (h : s.Hosted reads natives) (hcatalog : t.session.catalog = s.session.catalog)
    (hparser : t.session.parser? = s.session.parser?)
    (hcallables : t.heap.callables = s.heap.callables) : t.Hosted reads natives where
  catalog slot f hf := h.catalog slot f (by rw [← hcatalog]; exact hf)
  callable i f hf := h.callable i f (by rw [← hf, Heap.callable, Heap.callable, hcallables])
  parser parse hp := h.parser parse (by rw [← hparser]; exact hp)

theorem addFunction (h : s.Hosted reads natives) {f : Function} (hf : f.Evaluates natives) :
    (s.withSession (s.session.addFunction f)).Hosted reads natives where
  catalog slot g hg := by
    rcases Catalog.eq_or_get?_of_add hg with rfl | hg
    · exact hf
    · exact h.catalog slot g hg
  callable := h.callable
  parser := h.parser

theorem newCallable (h : s.Hosted reads natives) {k : Callable} (hk : ∀ f, k ≠ .function f) :
    (s.withHeap (s.heap.newCallable k).2).Hosted reads natives where
  catalog := h.catalog
  callable := forall_push (P := fun k : Callable => ∀ f, k = .function f → f.Evaluates natives) h.callable
    fun f hf => absurd hf (hk f)
  parser := h.parser

end State.Hosted

/-! ## The invariant -/

/-- The way back of the body which runs, and whether it is the body of the coroutine, of which is
evaluated what holds no barred node. -/
structure Activation where
  way : List ResumeFrame
  guarded : Bool

namespace Activation

/-- What holds while a coroutine runs on a way back. -/
structure Holds (reads : ExpressionParser → Prop) (natives : Node → Prop) (i : Nat) (c : Coroutine)
    (way : List ResumeFrame) (s : State) : Prop where
  resume : s.session.resume = way
  hosted : s.Hosted reads natives
  lt : i < s.heap.coroutines.size
  record : s.heap.coroutine i = c

/-- All nodes that take a frame are barred. -/
def Frameless (bars : Node → Bool) : Prop := ∀ e : Node, e.takesFrame = true → bars e = true

/-- All statements that a `yield` may stand in are barred. -/
def Stageless (bars : Node → Bool) : Prop := ∀ e : Node, e.isStatement = true → bars e = true

/-- Where calls are not barred, the host evaluates nothing that is barred, and some frames may be
taken. -/
def Open (reads : ExpressionParser → Prop) (natives : Node → Prop) (bars : Node → Bool) : Prop :=
  ∀ e : Node, e.isCall = true → bars e = false →
    (∀ node, natives node → node.Free reads bars) ∧ ¬ Frameless bars

end Activation

open Activation

/-- While coroutine `i` is recorded as `c`, a way back is only ever used up, and what holds no barred
node does nothing that only barred nodes do. -/
def Invariant.activation (reads : ExpressionParser → Prop) (natives : Node → Prop)
    (bars : Node → Bool) (i : Nat) (c : Coroutine) : Invariant where
  World := Activation
  le w w' := w'.way <:+ w.way ∧ w'.guarded = w.guarded ∧
    (w.guarded = true → Frameless bars → w'.way = w.way)
  holds w := Holds reads natives i c w.way
  way w fs := w.guarded = true →
    (∃ v, bars (.yieldWith v) = false) ∧ (Stageless bars → fs = [.atYield])
  fits w e := w.guarded = true → e.Free reads bars
  enters _ w' := w'.guarded = false
  lax := False

namespace Activation

variable {reads : ExpressionParser → Prop} {natives : Node → Prop} {i : Nat} {c : Coroutine}
variable {way : List ResumeFrame} {s : State}

/-- The property does not depend on anything else. -/
theorem Holds.change {t : State} (h : Holds reads natives i c way s) {way' : List ResumeFrame}
    (hresume : t.session.resume = way') (hhosted : t.Hosted reads natives)
    (hcoroutines : t.heap.coroutines = s.heap.coroutines) : Holds reads natives i c way' t where
  resume := hresume
  hosted := hhosted
  lt := by rw [hcoroutines]; exact h.lt
  record := by rw [Heap.coroutine, hcoroutines]; exact h.record

theorem Holds.withResume (h : Holds reads natives i c way s) (way' : List ResumeFrame) :
    Holds reads natives i c way' (s.withResume way') :=
  h.change rfl (h.hosted.congr rfl rfl rfl) rfl

/-- Another coroutine may be replaced. -/
theorem Holds.setCoroutine (h : Holds reads natives i c way s) {k : Nat} (hk : k ≠ i)
    (c' : Coroutine) : Holds reads natives i c way (s.withHeap (s.heap.setCoroutine k c')) where
  resume := h.resume
  hosted := h.hosted.congr rfl rfl rfl
  lt := by
    show i < (s.heap.coroutines.setIfInBounds k c').size
    rw [Array.size_setIfInBounds]
    exact h.lt
  record := by
    show (s.heap.coroutines.setIfInBounds k c').getD i default = c
    rw [getD_setIfInBounds, if_neg fun heq => hk heq.1]
    exact h.record

/-- What the property looks at is in the view. -/
theorem Holds.congr {t : State} (h : Holds reads natives i c way s) (hview : s.view = t.view) :
    Holds reads natives i c way t := by
  simp only [State.view, View.mk.injEq] at hview
  obtain ⟨hresume, _, _, hcatalog, hparser, hcallables, hcoroutines⟩ := hview
  exact h.change (hresume ▸ h.resume) (h.hosted.congr hcatalog.symm hparser.symm hcallables.symm)
    hcoroutines.symm

theorem Holds.newCoroutine (h : Holds reads natives i c way s) (c' : Coroutine) :
    Holds reads natives i c way
      (s.withHeap { s.heap with coroutines := s.heap.coroutines.push c' }) where
  resume := h.resume
  hosted := h.hosted.congr rfl rfl rfl
  lt := by
    show i < (s.heap.coroutines.push c').size
    rw [Array.size_push]
    exact Nat.lt_succ_of_lt h.lt
  record := by
    show (s.heap.coroutines.push c').getD i default = c
    rw [getD_push_lt _ _ h.lt]
    exact h.record

end Activation

section
variable {reads : ExpressionParser → Prop} {natives : Node → Prop} {bars : Node → Bool}
variable {i : Nat} {c : Coroutine}

/-- A node that may be evaluated is not barred. -/
theorem Activation.exists_not_barred {w : Activation} {kind : Node → Bool}
    (h : (Invariant.activation reads natives bars i c).Permits w kind) (hguarded : w.guarded = true) :
    ∃ e, kind e = true ∧ bars e = false := by
  obtain ⟨e, hfits, hkind⟩ := h
  exact ⟨e, hkind, (hfits hguarded).self⟩

theorem Activation.le_refl (w : Activation) : (Invariant.activation reads natives bars i c).le w w :=
  ⟨List.suffix_refl _, rfl, fun _ _ => rfl⟩

theorem Activation.not_frameless {w : Activation}
    (h : (Invariant.activation reads natives bars i c).Permits w Node.takesFrame) (hguarded : w.guarded = true) :
    ¬ Frameless bars := by
  intro hbars
  obtain ⟨e, he, hbar⟩ := exists_not_barred h hguarded
  cases (hbars e he).symm.trans hbar

theorem Activation.not_stageless {w : Activation}
    (h : (Invariant.activation reads natives bars i c).Permits w Node.isStatement) (hguarded : w.guarded = true) :
    ¬ Stageless bars := by
  intro hbars
  obtain ⟨e, he, hbar⟩ := exists_not_barred h hguarded
  cases (hbars e he).symm.trans hbar

/-- Where there may be a call, the host evaluates nothing that is barred, and some frames may be taken. -/
theorem Activation.Open.of_permits (hopen : Open reads natives bars) {w : Activation}
    (h : (Invariant.activation reads natives bars i c).Permits w Node.isCall) (hguarded : w.guarded = true) :
    (∀ node, natives node → node.Free reads bars) ∧ ¬ Frameless bars := by
  obtain ⟨e, hcall, hbar⟩ := exists_not_barred h hguarded
  exact hopen e hcall hbar

/-- Another coroutine begins than the one that runs. -/
theorem Activation.Holds.ne_of_begin? {way : List ResumeFrame} {s : State} (hs : Holds reads natives i c way s)
    (hc : c.state = .running) {k : Nat} {p : List ResumeFrame × Coroutine}
    (hbegin : (s.heap.coroutine k).begin? = .ok (some p)) : k ≠ i := by
  rintro rfl
  rw [hs.record, Coroutine.begin?, hc] at hbegin
  cases hbegin

/-- **A running coroutine is left alone.**  Evaluations use up the way back and never add to it, raise
no `yield` where none may be evaluated, and do not touch the record of the coroutine. -/
theorem Invariant.activation_kept (hopen : Open reads natives bars) (hc : c.state = .running) :
    (Invariant.activation reads natives bars i c).Kept where
  le_refl := Activation.le_refl
  le_trans {w₁ w₂ w₃} h₁ h₂ := by
    obtain ⟨hsuffix₁, hguarded₁, hway₁⟩ := h₁
    obtain ⟨hsuffix₂, hguarded₂, hway₂⟩ := h₂
    refine ⟨hsuffix₂.trans hsuffix₁, hguarded₂.trans hguarded₁, fun hguarded hbars => ?_⟩
    exact (hway₂ (hguarded₁.trans hguarded) hbars).trans (hway₁ hguarded hbars)
  way_mono h hway hguarded := hway (h.2.1.symm.trans hguarded)
  fits_mono h he hguarded := he (h.2.1.symm.trans hguarded)
  marked_mono _ hmarked := hmarked
  fits_part he hp hguarded := (he hguarded).part hp
  enters_fits _ h hguarded := by cases h.symm.trans hguarded
  suits _ _ _ := trivial
  typed _ _ _ := trivial
  writable _ _ := trivial
  congr hs hview := hs.congr hview
  callable {w s k f} hs hcalls hf r node hr hbody hguarded :=
    (hopen.of_permits hcalls hguarded).1 node (hs.hosted.callable k f hf r node hr hbody)
  addCallable hs hk := hs.change hs.resume (hs.hosted.newCallable hk) rfl
  addCoroutine c' hs _ _ := hs.newCoroutine c'
  allows {w s slot f} hs hcalls hf r node hr hbody hguarded :=
    (hopen.of_permits hcalls hguarded).1 node (hs.hosted.catalog slot f hf r node hr hbody)
  addFunction hs hf :=
    hs.change hs.resume (hs.hosted.addFunction (Function.evaluates_of_isNative hf)) rfl
  reserve n hs := hs.change hs.resume (hs.hosted.congr rfl rfl rfl) rfl
  remember site slot hs _ := hs.change hs.resume (hs.hosted.congr rfl rfl rfl) rfl
  parsed n hs ht hp he hguarded := (ht hguarded).expression (hs.hosted.parser _ hp) he n
  nextFrame := by
    intro w s f rest hs htakes hresume
    have hway : w.way = f :: rest := hs.resume.symm.trans hresume
    refine ⟨⟨rest, w.guarded⟩, ⟨?_, rfl, fun hguarded hbars => ?_⟩, hs.withResume rest⟩
    · rw [hway]
      exact List.suffix_cons f rest
    · exact absurd hbars (not_frameless htakes hguarded)
  forget {w s} hs hfits := by
    refine ⟨⟨[], w.guarded⟩, ⟨List.nil_suffix, rfl, fun hguarded hbars => ?_⟩, hs.withResume []⟩
    cases (hbars (.block []) rfl).symm.trans (hfits (.block []) hguarded).self
  way_yield he hguarded := ⟨⟨_, (he hguarded).self⟩, fun _ => rfl⟩
  way_cons {w f fs} hstage _ hway hguarded :=
    ⟨(hway hguarded).1, fun hbars => absurd hbars (not_stageless hstage hguarded)⟩
  barrier {w s} hs := by
    refine ⟨⟨[], false⟩, rfl, ⟨hs.withResume [], id⟩, fun w₂ t _ ht => ?_⟩
    refine ⟨w, Activation.le_refl w, ?_, id⟩
    rw [hs.resume]
    exact ht.withResume w.way
  callScope {w s} hs hcalls := by
    refine ⟨⟨w.way, false⟩, rfl, ⟨hs, id⟩, fun w₂ t hle ht => ?_⟩
    refine ⟨⟨w₂.way, w.guarded⟩, ⟨hle.1, rfl, fun hguarded hbars => ?_⟩, ht, id⟩
    exact absurd hbars (hopen.of_permits hcalls hguarded).2
  aside {w s} hs _ := by
    refine ⟨⟨[], w.guarded⟩, fun _ he => he, ⟨hs.withResume [], id⟩, fun w₂ t hle ht => ?_⟩
    refine ⟨w, Activation.le_refl w, ?_, id, fun _ hway hguarded => ?_⟩
    · rw [hs.resume]
      exact ht.withResume w.way
    · exact hway (hle.2.1.trans hguarded)
  -- another coroutine is resumed, so the record of this one is the same before and after
  resumed {w s k frames running} hs hbegin := by
    have hk : k ≠ i := hs.ne_of_begin? hc hbegin
    have hback : ∀ {way t} (c'), Holds reads natives i c way t → Holds reads natives i c w.way
        ((t.withResume s.session.resume).withHeap (t.heap.setCoroutine k c')) := by
      intro way t c' ht
      rw [hs.resume]
      exact (ht.withResume w.way).setCoroutine hk c'
    refine ⟨⟨frames, false⟩, rfl, ⟨(hs.setCoroutine hk running).withResume frames, id⟩, ?_, ?_⟩
    · exact fun w₂ t _ ht => ⟨w, Activation.le_refl w, hback _ ht, id⟩
    · exact fun w₂ t fs _ ht _ => ⟨w, Activation.le_refl w, hback _ ht, id⟩

/-- The evaluator agrees with itself while a coroutine runs. -/
theorem Invariant.ready_activation (hopen : Open reads natives bars) (hc : c.state = .running)
    (n : Nat) : (Invariant.activation reads natives bars i c).toSimulation.Ready (evaluator n)
      (evaluator n) :=
  (Invariant.activation_kept hopen hc).upheld.ready n

end

/-! ## Evaluations without a `yield` -/

/-- Whether an outcome is the suspension at a `yield`. -/
def Outcome.isYield {α : Type} : Outcome α → Bool
  | .signal (.yieldValue ..) => true
  | _ => false

section
variable {reads : ExpressionParser → Prop} {natives : Node → Prop} {bars : Node → Bool}
variable {i : Nat} {c : Coroutine} {ev : Evaluator} {α β : Type}

/-- What becomes of the way back when a part of a body is evaluated that holds no barred node. -/
theorem Activation.Holds.of_agrees {x : Exec α} {way : List ResumeFrame} {s : State}
    (hs : Holds reads natives i c way s)
    (h : (Invariant.activation reads natives bars i c).toSimulation.Agrees ev ev ⟨way, true⟩ x x) :
    ∃ way', way' <:+ way ∧ (Frameless bars → way' = way) ∧
      Holds reads natives i c way' (x ev s).2 ∧
      ∀ v fs, (x ev s).1 = .signal (.yieldValue v fs) →
        (∃ e, bars (.yieldWith e) = false) ∧ (Stageless bars → fs = [.atYield]) := by
  rcases Invariant.eq_of_ends (fun _ h => h) (h s s (Invariant.rel_self hs)) with
    ⟨hlax, _⟩ | ⟨_, w', hle, hholds, hway⟩
  · exact hlax.elim
  obtain ⟨hsuffix, hguarded, hkept⟩ := hle
  exact ⟨w'.way, hsuffix, hkept rfl, hholds, fun v fs hyield => hway v fs hyield hguarded⟩

end

/-- The way back of the coroutine which runs is used up. -/
abbrev State.Calm (reads : ExpressionParser → Prop) (i : Nat) (c : Coroutine) (s : State) : Prop :=
  Holds reads (Node.YieldFree reads) i c [] s

/-- The nodes that hold no `yield`, where the host is discreet. -/
abbrev Invariant.calm (reads : ExpressionParser → Prop) (i : Nat) (c : Coroutine) : Invariant :=
  .activation reads (Node.YieldFree reads) Node.isYield i c

theorem Activation.open_isYield (reads : ExpressionParser → Prop) :
    Open reads (Node.YieldFree reads) Node.isYield := by
  intro e _ _
  refine ⟨fun _ hnode => hnode, fun hframeless => ?_⟩
  cases hframeless (.block []) rfl

theorem Invariant.calm_kept {reads : ExpressionParser → Prop} {i : Nat} {c : Coroutine}
    (hc : c.state = .running) : (Invariant.calm reads i c).Kept :=
  Invariant.activation_kept (open_isYield reads) hc

/-- An evaluation raises no `yield` and leaves the coroutine alone. -/
def Exec.Quiet (reads : ExpressionParser → Prop) (i : Nat) (c : Coroutine) (ev : Evaluator) {α : Type}
    (x : Exec α) : Prop :=
  ∀ s : State, s.Calm reads i c → (x ev s).1.isYield = false ∧ (x ev s).2.Calm reads i c

section
variable {reads : ExpressionParser → Prop} {i : Nat} {c : Coroutine} {ev : Evaluator} {α β : Type}

/-- What keeps the invariant is quiet. -/
theorem Exec.Quiet.of_agrees {x : Exec α}
    (h : (Invariant.calm reads i c).toSimulation.Agrees ev ev ⟨[], true⟩ x x) :
    Quiet reads i c ev x := by
  intro s hs
  obtain ⟨way, hsuffix, _, hholds, hway⟩ := hs.of_agrees h
  obtain rfl : way = [] := List.suffix_nil.mp hsuffix
  refine ⟨?_, hholds⟩
  generalize x ev s = r at hway
  rcases r with ⟨_ | (_ | _ | _ | ⟨v, fs⟩ | _ | _) | _, t⟩ <;> try rfl
  obtain ⟨⟨e, he⟩, _⟩ := hway v fs rfl
  cases he

theorem Exec.Quiet.pure (a : α) : Quiet reads i c ev (Pure.pure a : Exec α) :=
  fun _ hs => ⟨rfl, hs⟩

theorem Exec.Quiet.bind {x : Exec α} {f : α → Exec β} (hx : Quiet reads i c ev x)
    (hf : ∀ a, Quiet reads i c ev (f a)) : Quiet reads i c ev (x >>= f) := by
  intro s hs
  have h := hx s hs
  rw [bind_apply]
  generalize x ev s = r at h ⊢
  obtain ⟨hyield, ht⟩ := h
  rcases r with ⟨a | g | k, t⟩
  · exact hf a t ht
  · refine ⟨?_, ht⟩
    cases g <;> first | rfl | cases hyield
  · exact ⟨rfl, ht⟩

end
end TreeScript
