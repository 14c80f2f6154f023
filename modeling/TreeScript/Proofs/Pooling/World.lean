import TreeScript.Proofs.Pooling.Frames

/-
# Scopes that are used again

Calls run in scopes that finished calls have left.  Whether this shows is a question about two runs:
the left one uses scopes again, and in the right one every call gets a new scope.  A scope of the
right side is a scope of the left side for a while, its *image*, and is *dead* from when the left side
has given that scope back.  Scopes that are not dead have different images.

The scope of a call is *owned* by its frame as long as it can still be given back: no callable has
captured it, and it has not been left early.  A body may use a scope if no scope around it is dead,
nor owned by a frame further out; it may be held in the heap if none is owned by any frame.  Then only
the scope of the innermost frame can die under a body that runs, and only by being left early.
-/

namespace TreeScript

namespace Pooling

/-! ## Worlds -/

/-- What is known of the two runs. -/
structure World where
  /-- How many scopes the right side has. -/
  size : Nat
  /-- The scope of the left side that a scope of the right side is. -/
  image : Nat → Nat
  /-- The scopes around a scope of the right side. -/
  around : Nat → List Nat
  /-- Whether the left side has given a scope back. -/
  dead : Nat → Prop
  /-- The frames of the right side. -/
  frames : List Frame

namespace World

variable (w w' : World)

/-- A scope of the right side and the scopes around it. -/
def chain (c : Nat) : List Nat := c :: w.around c

/-- What the innermost frame owns. -/
def own? : Option Nat := w.frames.head?.bind Frame.owned?

/-- Whether a frame owns a scope. -/
def Owned (a : Nat) : Prop := ∃ f ∈ w.frames, f.owned? = some a

/-- Whether a frame further out owns a scope. -/
def Guarded (a : Nat) : Prop := ∃ f ∈ w.frames.tail, f.owned? = some a

/-- The scope is known, and neither it nor one around it is dead or to be avoided. -/
structure Safe (avoid : Nat → Prop) (c c' : Nat) : Prop where
  image : w.image c' = c
  known : ∀ a ∈ w.chain c', a < w.size
  live : ∀ a ∈ w.chain c', ¬ w.dead a
  clear : ∀ a ∈ w.chain c', ¬ avoid a

/-- The body that runs may use the scope. -/
abbrev Scope (c c' : Nat) : Prop := w.Safe w.Guarded c c'

/-- The scope may be held in the heap. -/
abbrev Pinned (c c' : Nat) : Prop := w.Safe w.Owned c c'

/-- What is known of scopes is still known. -/
structure Extends : Prop where
  size : w.size ≤ w'.size
  image : ∀ a < w.size, w'.image a = w.image a
  around : ∀ a < w.size, w'.around a = w.around a

/-- The scope of the innermost frame may have died. -/
structure Unwound : Prop extends Extends w w' where
  frames : Frame.Running w.frames w'.frames
  dead : ∀ a < w.size, w'.dead a → w.dead a ∨ w.own? = some a

/-- No scope has died. -/
structure Le : Prop extends Extends w w' where
  frames : Frame.Running w.frames w'.frames
  dead : ∀ a < w.size, w'.dead a → w.dead a

end World

/-! ## The order of worlds -/

namespace World

variable {w w' w₁ w₂ w₃ : World}

theorem Extends.refl (w : World) : w.Extends w := ⟨Nat.le_refl _, fun _ _ => rfl, fun _ _ => rfl⟩

theorem Extends.trans (h : w₁.Extends w₂) (h' : w₂.Extends w₃) : w₁.Extends w₃ where
  size := Nat.le_trans h.size h'.size
  image a ha := (h'.image a (Nat.lt_of_lt_of_le ha h.size)).trans (h.image a ha)
  around a ha := (h'.around a (Nat.lt_of_lt_of_le ha h.size)).trans (h.around a ha)

theorem Le.refl (w : World) : w.Le w := ⟨.refl w, .refl _, fun _ _ h => h⟩

theorem Le.trans (h : w₁.Le w₂) (h' : w₂.Le w₃) : w₁.Le w₃ where
  toExtends := h.toExtends.trans h'.toExtends
  frames := h.frames.trans h'.frames
  dead a ha hd := h.dead a ha (h'.dead a (Nat.lt_of_lt_of_le ha h.size) hd)

theorem Le.unwound (h : w.Le w') : w.Unwound w' :=
  ⟨h.toExtends, h.frames, fun a ha hd => Or.inl (h.dead a ha hd)⟩

theorem Unwound.trans (h : w₁.Unwound w₂) (h' : w₂.Unwound w₃) : w₁.Unwound w₃ where
  toExtends := h.toExtends.trans h'.toExtends
  frames := h.frames.trans h'.frames
  dead a ha hd := by
    rcases h'.dead a (Nat.lt_of_lt_of_le ha h.size) hd with hd | hown
    · exact h.dead a ha hd
    · exact Or.inr (h.frames.owned? hown)

/-- A body whose frame owns nothing cannot lose its scope. -/
theorem Unwound.le_of_own? (h : w.Unwound w') (hown : w.own? = none) : w.Le w' := by
  refine ⟨h.toExtends, h.frames, fun a ha hd => ?_⟩
  rcases h.dead a ha hd with hd | ha
  · exact hd
  · rw [hown] at ha
    cases ha

theorem Guarded.owned {a : Nat} (h : w.Guarded a) : w.Owned a := by
  obtain ⟨f, hf, ha⟩ := h
  exact ⟨f, List.mem_of_mem_tail hf, ha⟩

/-- A scope is owned by the innermost frame or one further out. -/
theorem owned_iff {a : Nat} : w.Owned a ↔ w.own? = some a ∨ w.Guarded a := by
  unfold Owned Guarded own?
  cases w.frames with
  | nil => simp
  | cons f rest => simp

theorem guarded_of_running (h : Frame.Running w.frames w'.frames) {a : Nat} :
    w'.Guarded a ↔ w.Guarded a := by
  unfold Guarded
  rw [h.tail]

theorem owned_of_running (h : Frame.Running w.frames w'.frames) {a : Nat} (ha : w'.Owned a) : w.Owned a := by
  rw [owned_iff] at ha ⊢
  exact ha.imp h.owned? (guarded_of_running h).mp

/-! ## Safe scopes -/

section
variable {avoid avoid' : Nat → Prop} {c c' : Nat}

theorem Safe.lt (h : w.Safe avoid c c') : c' < w.size := h.known c' List.mem_cons_self

theorem Safe.not_dead (h : w.Safe avoid c c') : ¬ w.dead c' := h.live c' List.mem_cons_self

theorem Extends.chain (h : w.Extends w') (hc : c < w.size) : w'.chain c = w.chain c := by
  rw [World.chain, World.chain, h.around c hc]

theorem Safe.mono (h : w.Safe avoid c c') (hext : w.Extends w')
    (hdead : ∀ a ∈ w.chain c', w'.dead a → w.dead a)
    (havoid : ∀ a ∈ w.chain c', avoid' a → avoid a) : w'.Safe avoid' c c' := by
  have hchain := hext.chain h.lt
  refine ⟨(hext.image c' h.lt).trans h.image, ?_, ?_, ?_⟩ <;> rw [hchain]
  · exact fun a ha => Nat.lt_of_lt_of_le (h.known a ha) hext.size
  · exact fun a ha hd => h.live a ha (hdead a ha hd)
  · exact fun a ha hv => h.clear a ha (havoid a ha hv)

theorem Safe.scope (h : w.Pinned c c') : w.Scope c c' :=
  h.mono (.refl w) (fun _ _ hd => hd) fun _ _ => Guarded.owned

theorem Le.scope (h : w.Le w') (hc : w.Scope c c') : w'.Scope c c' :=
  hc.mono h.toExtends (fun a ha => h.dead a (hc.known a ha)) fun _ _ =>
    (guarded_of_running h.frames).mp

theorem Unwound.pinned (h : w.Unwound w') (hc : w.Pinned c c') : w'.Pinned c c' := by
  refine hc.mono h.toExtends (fun a ha hd => ?_) fun _ _ => owned_of_running h.frames
  rcases h.dead a (hc.known a ha) hd with hd | hown
  · exact hd
  · exact absurd (owned_iff.mpr (Or.inl hown)) (hc.clear a ha)

/-- If the innermost frame owns nothing, what its body uses may be held. -/
theorem Safe.pinned_of_own? (h : w.Scope c c') (hown : w.own? = none) : w.Pinned c c' := by
  refine h.mono (.refl w) (fun _ _ hd => hd) fun a _ ha => ?_
  rcases owned_iff.mp ha with ha | ha
  · rw [hown] at ha
    cases ha
  · exact ha

end

/-! ## Worlds after a step -/

/-- A new scope of the right side, which is a given one of the left side. -/
def push (w : World) (c : Nat) (ancestors : List Nat) : World where
  size := w.size + 1
  image a := if a = w.size then c else w.image a
  around a := if a = w.size then ancestors else w.around a
  dead a := a ≠ w.size ∧ w.dead a
  frames := w.frames

/-- The world in which a body begins that runs in a frame. -/
def enter (w : World) (f : Frame) : World := { w with frames := f :: w.frames }

/-- The innermost frame gives back what it owns. -/
def bury (w : World) (frames : List Frame) : World where
  size := w.size
  image := w.image
  around := w.around
  dead a := w.dead a ∨ w.own? = some a
  frames := frames

theorem Extends.enter (h : w.Extends w') (f : Frame) : w.Extends (w'.enter f) :=
  ⟨h.size, h.image, h.around⟩

theorem Extends.bury (h : w.Extends w') (frames : List Frame) : w.Extends (w'.bury frames) :=
  ⟨h.size, h.image, h.around⟩

/-- What is held is not owned by the frame that gives back what it owns. -/
theorem Safe.bury {c c' : Nat} (h : w.Pinned c c') {frames : List Frame}
    (hframes : ∀ a, (∃ f ∈ frames, f.owned? = some a) → w.Owned a) :
    (w.bury frames).Pinned c c' := by
  refine h.mono ((Extends.refl w).bury frames) ?_ fun a _ => hframes a
  rintro a ha (hd | hd)
  · exact hd
  · exact absurd (owned_iff.mpr (Or.inl hd)) (h.clear a ha)

theorem extends_push (w : World) (c : Nat) (ancestors : List Nat) : w.Extends (w.push c ancestors) := by
  refine ⟨Nat.le_succ _, fun a ha => ?_, fun a ha => ?_⟩ <;> exact if_neg (Nat.ne_of_lt ha)

theorem le_push (w : World) (c : Nat) (ancestors : List Nat) : w.Le (w.push c ancestors) :=
  ⟨extends_push w c ancestors, .refl _, fun _ _ hd => hd.2⟩

end World
end Pooling
end TreeScript
