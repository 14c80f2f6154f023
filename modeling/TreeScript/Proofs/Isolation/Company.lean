import TreeScript.Proofs.Isolation.Primitives
import TreeScript.Proofs.Isolation.Twins
import TreeScript.Proofs.Simulation.Primitives

/-
# A coroutine alone and in company

The left run is that of a coroutine that is asked alone, watched by the evaluator that stops where the body
leaves its confines; the right run is that of the same coroutine in company.  The scopes and slots that it owns
are twins.  What it does not own the right run leaves as it was when the body went on, and neither run changes
a coroutine or the conditions under which bodies are evaluated.
-/

namespace TreeScript

open Exec

/-- What bodies are evaluated under: the marks of the session, its reader of templates, and its budget. -/
structure Conditions where
  cancellation : Cancellation
  parser? : Option ExpressionParser
  budget : Option Nat

/-- The conditions in a state. -/
def State.conditions (s : State) : Conditions :=
  ⟨s.session.cancellation, s.session.parser?, s.session.meter.budget⟩

/-- A frame that the body of a confined coroutine may leave behind: no handler has begun, and no loop visits
another coroutine. -/
def ResumeFrame.IsConfined : ResumeFrame → Prop
  | .inEach _ (.coroutine _) | .inTry (some _) => False
  | _ => True

namespace Isolation

/-! ## What is held in common -/

/-- Scopes and slots that are not owned are as they were. -/
structure Kept (own ownSlot : Nat → Prop) (before h : Heap) : Prop where
  scopes_le : before.scopes.size ≤ h.scopes.size
  slots_le : before.slots.size ≤ h.slots.size
  scope : ∀ a < before.scopes.size, ¬ own a → h.scope a = before.scope a
  slot : ∀ i < before.slots.size, ¬ ownSlot i → h.slot i = before.slot i

namespace World

/-- The scopes of the right run that the coroutine owns. -/
def Owns (w : World) (c' : Nat) : Prop := ∃ c, w.scope c c'

/-- The slots of the right run that the coroutine owns. -/
def OwnsSlot (w : World) (i' : Nat) : Prop := ∃ i, w.slot i i'

/-- Frames that lead to the same place. -/
def SameFrame (w : World) (f f' : ResumeFrame) : Prop := f.Alike w.scope f' ∧ f.IsConfined

/-- What is the same stays so, and what the right run has made since then is new. -/
structure Le (before : Heap) (w w' : World) : Prop where
  scope : ∀ {c c'}, w.scope c c' → w'.scope c c'
  slot : ∀ {i i'}, w.slot i i' → w'.slot i i'
  newScope : ∀ {c c'}, w'.scope c c' → w.scope c c' ∨ before.scopes.size ≤ c'
  newSlot : ∀ {i i'}, w'.slot i i' → w.slot i i' ∨ before.slots.size ≤ i'

section
variable {before : Heap} {w w' w₁ w₂ w₃ : World}

theorem Le.refl (before : Heap) (w : World) : w.Le before w := ⟨id, id, Or.inl, Or.inl⟩

theorem Le.trans (h : w₁.Le before w₂) (h' : w₂.Le before w₃) : w₁.Le before w₃ where
  scope hc := h'.scope (h.scope hc)
  slot hi := h'.slot (h.slot hi)
  newScope hc := (h'.newScope hc).elim h.newScope Or.inr
  newSlot hi := (h'.newSlot hi).elim h.newSlot Or.inr

theorem Le.addScope {n n' : Nat} (hn : before.scopes.size ≤ n') : w.Le before (w.addScope n n') where
  scope := Or.inr
  slot := id
  newScope := by
    rintro c c' (⟨rfl, rfl⟩ | hc)
    · exact Or.inr hn
    · exact Or.inl hc
  newSlot := Or.inl

theorem Le.addSlot {n n' : Nat} (hn : before.slots.size ≤ n') : w.Le before (w.addSlot n n') where
  scope := id
  slot := Or.inr
  newScope := Or.inl
  newSlot := by
    rintro i i' (⟨rfl, rfl⟩ | hi)
    · exact Or.inr hn
    · exact Or.inl hi

theorem SameFrame.mono {f f' : ResumeFrame} (h : w.SameFrame f f')
    (hscope : ∀ {c c'}, w.scope c c' → w'.scope c c') : w'.SameFrame f f' :=
  ⟨h.1.mono hscope, h.2⟩

end
end World

/-- The body of a coroutine has gone on in `b` alone and in `b'` in company, and has come to these states. -/
structure Rel (origin : Nat) (b b' : State) (w : World) (s s' : State) : Prop extends
    Twins origin w s.heap s'.heap where
  coroutines : s.heap.coroutines = b.heap.coroutines
  coroutines' : s'.heap.coroutines = b'.heap.coroutines
  kept : Kept w.Owns w.OwnsSlot b'.heap s'.heap
  conditions : s.conditions = s'.conditions
  conditions' : s'.conditions = b'.conditions
  steps : s.session.meter.steps = s'.session.meter.steps
  calls : s.session.calls = s'.session.calls
  way : List.Forall₂ w.SameFrame s.session.resume s'.session.resume

/-- A coroutine alone and in company. -/
def company (origin : Nat) (b b' : State) : Simulation where
  World := World
  le := World.Le b'.heap
  unwound := World.Le b'.heap
  rel := Rel origin b b'
  scope := World.scope
  pinned := World.scope
  way w := List.Forall₂ w.SameFrame
  fits _ _ := True
  enters := World.Le b'.heap
  closed _ := True
  suits _ _ _ := True
  typed _ _ _ := True
  writable _ _ := True
  lax := True

section
variable {origin : Nat} {b b' : State} {w w' : World} {s s' : State}

theorem ordered : (company origin b b').Ordered where
  le_refl := World.Le.refl b'.heap
  le_trans := World.Le.trans
  unwound_of_le h := h
  unwound_trans := World.Le.trans
  scope_of_pinned h := h
  scope_mono h := h.scope
  pinned_mono h := h.scope
  way_mono h hway := hway.imp fun _ _ hf => hf.mono h.scope
  fits_mono _ _ := trivial
  closed_mono _ _ := trivial
  le_of_closed _ h := h

/-! ## Heaps of the right run -/

section
variable {own own' ownSlot ownSlot' : Nat → Prop} {before h : Heap}

theorem Kept.mono (K : Kept own ownSlot before h) (hown : ∀ a, own a → own' a)
    (hslot : ∀ i, ownSlot i → ownSlot' i) : Kept own' ownSlot' before h :=
  { K with
    scope := fun a ha hn => K.scope a ha fun h => hn (hown a h)
    slot := fun i hi hn => K.slot i hi fun h => hn (hslot i h) }

theorem Kept.pushScope (K : Kept own ownSlot before h) (s : TreeScript.Scope) :
    Kept own ownSlot before { h with scopes := h.scopes.push s } :=
  { K with
    scopes_le := by
      rw [Array.size_push]
      exact Nat.le_succ_of_le K.scopes_le
    scope := fun a ha hn =>
      (getD_push_lt h.scopes s (Nat.lt_of_lt_of_le ha K.scopes_le)).trans (K.scope a ha hn) }

theorem Kept.pushSlot (K : Kept own ownSlot before h) (s : Slot) :
    Kept own ownSlot before { h with slots := h.slots.push s } :=
  { K with
    slots_le := by
      rw [Array.size_push]
      exact Nat.le_succ_of_le K.slots_le
    slot := fun i hi hn =>
      (getD_push_lt h.slots s (Nat.lt_of_lt_of_le hi K.slots_le)).trans (K.slot i hi hn) }

theorem Kept.modifyScope (K : Kept own ownSlot before h) {c : Nat} (hc : own c)
    (f : TreeScript.Scope → TreeScript.Scope) :
    Kept own ownSlot before { h with scopes := h.scopes.modify c f } :=
  { K with
    scopes_le := by
      rw [Array.size_modify]
      exact K.scopes_le
    scope := fun a ha hn => by
      refine Eq.trans ?_ (K.scope a ha hn)
      show (h.scopes.modify c f).getD a default = h.scopes.getD a default
      rw [getD_modify, if_neg]
      rintro ⟨rfl, -⟩
      exact hn hc }

theorem Kept.modifySlot (K : Kept own ownSlot before h) {i : Nat} (hi : ownSlot i) (f : Slot → Slot) :
    Kept own ownSlot before { h with slots := h.slots.modify i f } :=
  { K with
    slots_le := by
      rw [Array.size_modify]
      exact K.slots_le
    slot := fun j hj hn => by
      refine Eq.trans ?_ (K.slot j hj hn)
      show (h.slots.modify i f).getD j default = h.slots.getD j default
      rw [getD_modify, if_neg]
      rintro ⟨rfl, -⟩
      exact hn hi }

end

/-! ## States of the two runs -/

/-- The heaps change, and more is owned. -/
theorem Rel.withHeaps (hs : Rel origin b b' w s s') {h h' : Heap} (T : Twins origin w' h h')
    (hle : w.Le b'.heap w') (hcoroutines : h.coroutines = s.heap.coroutines)
    (hcoroutines' : h'.coroutines = s'.heap.coroutines)
    (hkept : Kept w'.Owns w'.OwnsSlot b'.heap h') :
    Rel origin b b' w' (s.withHeap h) (s'.withHeap h') where
  toTwins := T
  coroutines := hcoroutines.trans hs.coroutines
  coroutines' := hcoroutines'.trans hs.coroutines'
  kept := hkept
  conditions := hs.conditions
  conditions' := hs.conditions'
  steps := hs.steps
  calls := hs.calls
  way := hs.way.imp fun _ _ hf => hf.mono hle.scope

theorem Rel.kept_mono (hs : Rel origin b b' w s s') (hle : w.Le b'.heap w') :
    Kept w'.Owns w'.OwnsSlot b'.heap s'.heap :=
  hs.kept.mono (fun _ ⟨c, hc⟩ => ⟨c, hle.scope hc⟩) fun _ ⟨i, hi⟩ => ⟨i, hle.slot hi⟩

theorem Rel.newScope (hs : Rel origin b b' w s s') {c c' : Nat} (hc : w.scope c c') :
    w.Le b'.heap (w.addScope s.heap.scopes.size s'.heap.scopes.size) ∧
      Rel origin b b' (w.addScope s.heap.scopes.size s'.heap.scopes.size)
        (s.withHeap (s.heap.newScope c).2) (s'.withHeap (s'.heap.newScope c').2) := by
  have hle : w.Le b'.heap (w.addScope s.heap.scopes.size s'.heap.scopes.size) :=
    .addScope hs.kept.scopes_le
  exact ⟨hle, hs.withHeaps (hs.toTwins.newScope hc) hle rfl rfl ((hs.kept_mono hle).pushScope _)⟩

theorem Rel.declareSlot (hs : Rel origin b b' w s s') {c c' : Nat} (hc : w.scope c c') (x : String)
    {p q : Slot} (hpq : SameSlot p q) :
    w.Le b'.heap (w.addSlot s.heap.slots.size s'.heap.slots.size) ∧
      Rel origin b b' (w.addSlot s.heap.slots.size s'.heap.slots.size)
        (s.withHeap (s.heap.declareSlot c x p)) (s'.withHeap (s'.heap.declareSlot c' x q)) := by
  have hle : w.Le b'.heap (w.addSlot s.heap.slots.size s'.heap.slots.size) :=
    .addSlot hs.kept.slots_le
  refine ⟨hle, hs.withHeaps (hs.toTwins.declareSlot hc x hpq) hle rfl rfl ?_⟩
  exact ((hs.kept_mono hle).pushSlot q).modifyScope ⟨c, hc⟩ _

theorem Rel.setValue (hs : Rel origin b b' w s s') {i i' : Nat} (hi : w.slot i i') {v v' : Value}
    (hv : v.Primitive → v = v') :
    Rel origin b b' w (s.withHeap (s.heap.setValue i v)) (s'.withHeap (s'.heap.setValue i' v')) :=
  hs.withHeaps (hs.toTwins.setValue hi hv) (.refl _ w) rfl rfl (hs.kept.modifySlot ⟨i, hi⟩ _)

theorem Rel.unbind (hs : Rel origin b b' w s s') {c c' : Nat} (hc : w.scope c c') {x : String}
    (howns : s.heap.owns origin c x = true) :
    Rel origin b b' w (s.withHeap (s.heap.unbind c x).2) (s'.withHeap (s'.heap.unbind c' x).2) := by
  obtain ⟨a, a', ha, hleft, hright, T⟩ := hs.toTwins.unbind hc howns
  refine hs.withHeaps T (.refl _ w) ?_ ?_ ?_
  · rw [hleft]
  · rw [hright]
  · rw [hright]
    exact hs.kept.modifyScope ⟨a, ha⟩ _

end
end Isolation
end TreeScript
