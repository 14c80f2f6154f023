import TreeScript.Proofs.Evaluations

/-
# Two evaluations side by side

Many properties of the evaluator compare two runs: the same program in two states, or with two
evaluators, or one run with itself when the question is what it preserves.  A `Simulation` says what
the two runs have in common while they last.

What is known in common grows as the runs proceed, and is recorded in a *world*.  `le w w'` says that
`w'` knows all that `w` knew.  A jump that unwinds to a call (a return, an exception, a failure) may
come from a call that has left its scope early; what is then still known is `unwound w w'`.  A scope
may be used by the body that runs (`scope`), or also be held in the heap (`pinned`).  What is known of
the types of slots is in `suits`, `typed` and `writable`; a simulation that does not care lets them hold
of everything.

`Run` is the resulting relation between evaluations, and this file has its rules for sequencing and
for the combinators that work on outcomes.
-/

namespace TreeScript

open Exec

/-- What two evaluations have in common while they run side by side. -/
structure Simulation where
  /-- What has been learnt so far. -/
  World : Type
  /-- Nothing has been forgotten. -/
  le : World → World → Prop
  /-- Nothing has been forgotten that outlives the body which runs. -/
  unwound : World → World → Prop
  rel : World → State → State → Prop
  /-- The scopes of the two sides that the body which runs may use. -/
  scope : World → Nat → Nat → Prop
  /-- The scopes of the two sides that may be held in the heap. -/
  pinned : World → Nat → Nat → Prop
  /-- The ways back that a suspension may have. -/
  way : World → List ResumeFrame → List ResumeFrame → Prop
  /-- The nodes that the body which runs may evaluate. -/
  fits : World → Node → Prop
  /-- The second world is that of a body which begins in the first. -/
  enters : World → World → Prop
  /-- The body which runs owns no scope that it could leave early. -/
  closed : World → Prop
  /-- The values that a slot of a type may hold. -/
  suits : World → TypeKind → Value → Prop
  /-- The slots that are known, with their types. -/
  typed : World → Nat → TypeKind → Prop
  /-- The slots that may be written to. -/
  writable : World → Nat → Prop
  /-- Nothing is said about a run whose left side reaches its bound. -/
  lax : Prop

namespace Simulation

variable (S : Simulation)

/-! ## Outcomes -/

/-- Signals with which the two sides may end. -/
inductive Raised (w w' : S.World) : Signal → Signal → Prop
  | breakLoop (v : Value) : S.le w w' → Raised w w' (.breakLoop v) (.breakLoop v)
  | continueLoop : S.le w w' → Raised w w' .continueLoop .continueLoop
  | yieldValue (v : Value) {fs fs' : List ResumeFrame} : S.le w w' → S.way w' fs fs' →
      Raised w w' (.yieldValue v fs) (.yieldValue v fs')
  | returnValue (v : Value) : S.unwound w w' → Raised w w' (.returnValue v) (.returnValue v)
  | throwValue (v : Value) : S.unwound w w' → Raised w w' (.throwValue v) (.throwValue v)
  | error (e : EvalError) : S.unwound w w' → Raised w w' (.error e) (.error e)

/-- Outcomes and states with which the two sides may end. -/
inductive Ends {α β : Type} (w : S.World) (A : S.World → α → β → Prop) :
    Outcome α × State → Outcome β × State → Prop
  | value {w' : S.World} {a : α} {b : β} {t t' : State} : S.le w w' → S.rel w' t t' → A w' a b →
      Ends w A (.value a, t) (.value b, t')
  | signal {w' : S.World} {g g' : Signal} {t t' : State} : S.Raised w w' g g' → S.rel w' t t' →
      Ends w A (.signal g, t) (.signal g', t')
  | halted {w' : S.World} (h : Halt) {t t' : State} : S.unwound w w' → S.rel w' t t' →
      Ends w A (.halted h, t) (.halted h, t')
  | stopped (t : State) (r : Outcome β × State) : S.lax → Ends w A (.halted .outOfFuel, t) r

/-- From states in relation, the two evaluations end alike. -/
def Run (ev ev' : Evaluator) {α β : Type} (w : S.World) (A : S.World → α → β → Prop) (x : Exec α)
    (y : Exec β) : Prop :=
  ∀ s s', S.rel w s s' → S.Ends w A (x ev s) (y ev' s')

/-- The two evaluations end alike, and with the same value if they give one. -/
abbrev Agrees (ev ev' : Evaluator) {α : Type} (w : S.World) (x y : Exec α) : Prop :=
  S.Run ev ev' w (fun _ a b => a = b) x y

/-- The two evaluations end alike, and with the same value and one of which something is known. -/
abbrev AgreesOn (ev ev' : Evaluator) {α : Type} (w : S.World) (B : S.World → α → Prop)
    (x y : Exec α) : Prop :=
  S.Run ev ev' w (fun w' a b => a = b ∧ B w' a) x y

/-! ## What grows -/

/-- The laws of worlds. -/
structure Ordered : Prop where
  le_refl : ∀ w, S.le w w
  le_trans : ∀ {w₁ w₂ w₃}, S.le w₁ w₂ → S.le w₂ w₃ → S.le w₁ w₃
  unwound_of_le : ∀ {w w'}, S.le w w' → S.unwound w w'
  unwound_trans : ∀ {w₁ w₂ w₃}, S.unwound w₁ w₂ → S.unwound w₂ w₃ → S.unwound w₁ w₃
  scope_of_pinned : ∀ {w c c'}, S.pinned w c c' → S.scope w c c'
  scope_mono : ∀ {w w' c c'}, S.le w w' → S.scope w c c' → S.scope w' c c'
  pinned_mono : ∀ {w w' c c'}, S.unwound w w' → S.pinned w c c' → S.pinned w' c c'
  way_mono : ∀ {w w' fs fs'}, S.le w w' → S.way w fs fs' → S.way w' fs fs'
  fits_mono : ∀ {w w' e}, S.unwound w w' → S.fits w e → S.fits w' e
  closed_mono : ∀ {w w'}, S.le w w' → S.closed w → S.closed w'
  /-- A body that cannot leave its scope keeps all that it knew. -/
  le_of_closed : ∀ {w w'}, S.closed w → S.unwound w w' → S.le w w'

variable {S} {ev ev' : Evaluator} {α β γ δ : Type} {w w' : S.World}
variable {A B : S.World → α → β → Prop}

theorem Raised.mono (O : S.Ordered) {w₀ : S.World} {g g' : Signal} (h₀ : S.le w₀ w)
    (h : S.Raised w w' g g') : S.Raised w₀ w' g g' := by
  cases h with
  | breakLoop v h => exact .breakLoop v (O.le_trans h₀ h)
  | continueLoop h => exact .continueLoop (O.le_trans h₀ h)
  | yieldValue v h hway => exact .yieldValue v (O.le_trans h₀ h) hway
  | returnValue v h => exact .returnValue v (O.unwound_trans (O.unwound_of_le h₀) h)
  | throwValue v h => exact .throwValue v (O.unwound_trans (O.unwound_of_le h₀) h)
  | error e h => exact .error e (O.unwound_trans (O.unwound_of_le h₀) h)

/-- All signals unwind at least. -/
theorem Raised.unwound (O : S.Ordered) {g g' : Signal} (h : S.Raised w w' g g') :
    S.unwound w w' := by
  cases h with
  | breakLoop v h | continueLoop h | yieldValue v h _ => exact O.unwound_of_le h
  | returnValue v h | throwValue v h | error e h => exact h

theorem Ends.mono (O : S.Ordered) {w₀ : S.World} {p : Outcome α × State} {q : Outcome β × State}
    (h₀ : S.le w₀ w) (h : S.Ends w A p q) : S.Ends w₀ A p q := by
  cases h with
  | value h hrel hA => exact .value (O.le_trans h₀ h) hrel hA
  | signal h hrel => exact .signal (h.mono O h₀) hrel
  | halted k h hrel => exact .halted k (O.unwound_trans (O.unwound_of_le h₀) h) hrel
  | stopped t _ hlax => exact .stopped t _ hlax

/-! ## Sequencing -/

namespace Run

variable {x : Exec α} {y : Exec β}

protected theorem weaken (h : S.Run ev ev' w A x y) (hAB : ∀ w' a b, A w' a b → B w' a b) :
    S.Run ev ev' w B x y := by
  intro s s' hs
  have hends := h s s' hs
  generalize x ev s = p at hends ⊢
  generalize y ev' s' = q at hends ⊢
  cases hends with
  | value hle hrel hA => exact .value hle hrel (hAB _ _ _ hA)
  | signal hg hrel => exact .signal hg hrel
  | halted k hw hrel => exact .halted k hw hrel
  | stopped t _ hlax => exact .stopped t _ hlax

protected theorem give (O : S.Ordered) {a : α} {b : β} (h : A w a b) :
    S.Run ev ev' w A (pure a) (pure b) := by
  intro s s' hs
  exact .value (O.le_refl w) hs h

protected theorem seq (O : S.Ordered) {f : α → Exec γ} {g : β → Exec δ} {C : S.World → γ → δ → Prop}
    (hx : S.Run ev ev' w A x y)
    (hf : ∀ w' a b, S.le w w' → A w' a b → S.Run ev ev' w' C (f a) (g b)) :
    S.Run ev ev' w C (x >>= f) (y >>= g) := by
  intro s s' hs
  have h := hx s s' hs
  rw [bind_apply, bind_apply]
  generalize x ev s = p at h ⊢
  generalize y ev' s' = q at h ⊢
  cases h with
  | value hle hrel hA => exact (hf _ _ _ hle hA _ _ hrel).mono O hle
  | signal hg hrel => exact .signal hg hrel
  | halted k hw hrel => exact .halted k hw hrel
  | stopped t _ hlax => exact .stopped t _ hlax

/-- The two sides take the same signals, and what they do then ends alike. -/
protected theorem handle {take : Signal → Option (Exec α)} {take' : Signal → Option (Exec β)}
    (hx : S.Run ev ev' w A x y)
    (htake : ∀ {w' g g' t t'}, S.Raised w w' g g' → S.rel w' t t' →
      take g = none ∧ take' g' = none ∨
        ∃ z z', take g = some z ∧ take' g' = some z' ∧ S.Ends w A (z ev t) (z' ev' t')) :
    S.Run ev ev' w A (handle x take) (handle y take') := by
  intro s s' hs
  have h := hx s s' hs
  unfold Exec.handle
  generalize x ev s = p at h ⊢
  generalize y ev' s' = q at h ⊢
  cases h with
  | value hle hrel hA => exact .value hle hrel hA
  | signal hg hrel =>
    dsimp only
    rcases htake hg hrel with ⟨hleft, hright⟩ | ⟨z, z', hleft, hright, hends⟩
    · rw [hleft, hright]
      exact .signal hg hrel
    · rw [hleft, hright]
      exact hends
  | halted k hw hrel => exact .halted k hw hrel
  | stopped t _ hlax => exact .stopped t _ hlax

protected theorem raise (O : S.Ordered) {g g' : Signal} (h : ∀ w', S.le w w' → S.Raised w w' g g') :
    S.Run ev ev' w A (raise g) (raise g') := by
  intro s s' hs
  exact .signal (h w (O.le_refl w)) hs

protected theorem error (O : S.Ordered) (e : EvalError) :
    S.Run ev ev' w A (Exec.raise (.error e)) (Exec.raise (.error e)) :=
  .raise O fun _ h => .error e (O.unwound_of_le h)

protected theorem fail (O : S.Ordered) (cause : ErrorCause) :
    S.Run ev ev' w A (Exec.fail cause) (Exec.fail cause) :=
  .error O _

protected theorem halt (O : S.Ordered) (h : Halt) : S.Run ev ev' w A (Exec.halt h) (Exec.halt h) := by
  intro s s' hs
  exact .halted h (O.unwound_of_le (O.le_refl w)) hs

end Run

namespace Run

variable {x y : Exec α}

/-- Sequencing after evaluations that give the same value. -/
protected theorem bind (O : S.Ordered) {f : α → Exec γ} {g : α → Exec δ} {C : S.World → γ → δ → Prop}
    (hx : S.Agrees ev ev' w x y)
    (hf : ∀ w' a, S.le w w' → S.Run ev ev' w' C (f a) (g a)) :
    S.Run ev ev' w C (x >>= f) (y >>= g) := by
  refine Run.seq O hx fun w' a b hle hab => ?_
  subst hab
  exact hf w' a hle

/-- Sequencing after evaluations that give the same value and one of which something is known. -/
protected theorem bindOn (O : S.Ordered) {f : α → Exec γ} {g : α → Exec δ}
    {C : S.World → γ → δ → Prop} {B : S.World → α → Prop} (hx : S.AgreesOn ev ev' w B x y)
    (hf : ∀ w' a, S.le w w' → B w' a → S.Run ev ev' w' C (f a) (g a)) :
    S.Run ev ev' w C (x >>= f) (y >>= g) := by
  refine Run.seq O hx fun w' a b hle hab => ?_
  obtain ⟨rfl, hB⟩ := hab
  exact hf w' a hle hB

/-- What is known of the value may be forgotten. -/
protected theorem agrees {B : S.World → α → Prop} (h : S.AgreesOn ev ev' w B x y) :
    S.Agrees ev ev' w x y :=
  h.weaken fun _ _ _ hab => hab.1

protected theorem pure (O : S.Ordered) (a : α) : S.Agrees ev ev' w (Pure.pure a) (Pure.pure a) :=
  Run.give O rfl

protected theorem ofExcept (O : S.Ordered) (r : Except EvalError α) :
    S.Agrees ev ev' w (ofExcept r) (ofExcept r) := by
  cases r with
  | ok a => exact .pure O a
  | error e => exact Run.error O e

protected theorem ofChecked (O : S.Ordered) (r : Checked α) :
    S.Agrees ev ev' w (ofChecked r) (ofChecked r) := by
  rcases r with (e | h) | a
  · exact Run.error O e
  · exact Run.halt O h
  · exact .pure O a

protected theorem mapM (O : S.Ordered) (f g : β → Exec α) (items : List β)
    (h : ∀ w', S.le w w' → ∀ b ∈ items, S.Agrees ev ev' w' (f b) (g b)) :
    S.Agrees ev ev' w (items.mapM f) (items.mapM g) := by
  induction items generalizing w with
  | nil => exact .pure O []
  | cons b items ih =>
    rw [List.mapM_cons, List.mapM_cons]
    refine .bind O (h w (O.le_refl w) b List.mem_cons_self) fun w₁ a h₁ => ?_
    refine .bind O (ih fun w₂ h₂ c hc => ?_) fun w₂ as _ => .pure O (a :: as)
    exact h w₂ (O.le_trans h₁ h₂) c (List.mem_cons_of_mem b hc)

end Run
end Simulation
end TreeScript
