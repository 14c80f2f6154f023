import TreeScript.Eval.Exec

/-
# Frames and the scopes they own

A pooled frame owns its scope until the scope is left early or captured, and keeps it until it is left
early.  Taking a frame away, leaving its scope early and letting a callable capture it each change the
frame and leave to the pool what the frame owned.
-/

namespace TreeScript

namespace Frame

/-- The scope that a frame gives back when its body ends. -/
def owned? : Frame → Option Nat
  | .pooled (some _) scope false false => some scope
  | _ => none

/-- The scope of a pooled frame that has not been given back. -/
def kept? : Frame → Option Nat
  | .pooled (some _) scope false _ => some scope
  | _ => none

/-- The scope of a pooled frame. -/
def scope? : Frame → Option Nat
  | .pooled _ scope _ _ => some scope
  | .barrier => none

/-- The frame after its scope has been left early. -/
def release : Frame → Frame
  | .pooled (some function) scope false false => .pooled (some function) scope true false
  | f => f

/-- The frame after its scope has been captured. -/
def retain : Frame → Frame
  | .pooled function scope released _ => .pooled function scope released true
  | .barrier => .barrier

/-- The frame with other scopes. -/
def rename (image : Nat → Nat) : Frame → Frame
  | .pooled function scope released retained => .pooled function (image scope) released retained
  | .barrier => .barrier

theorem kept?_of_owned? {f : Frame} {a : Nat} (h : f.owned? = some a) : f.kept? = some a := by
  rcases f with ⟨_ | function, scope, _ | _, _ | _⟩ | _ <;> first | exact h | cases h

theorem scope?_of_kept? {f : Frame} {a : Nat} (h : f.kept? = some a) : f.scope? = some a := by
  rcases f with ⟨_ | function, scope, _ | _, _ | _⟩ | _ <;> first | exact h | cases h

/-- A frame that has left its scope early keeps none if it owned it. -/
theorem kept?_release {f : Frame} {a : Nat} (h : f.release.kept? = some a) :
    f.kept? = some a ∧ f.owned? = none := by
  rcases f with ⟨_ | function, scope, _ | _, _ | _⟩ | _ <;> first | exact ⟨h, rfl⟩ | cases h

theorem scope?_release (f : Frame) : f.release.scope? = f.scope? := by
  rcases f with ⟨_ | function, scope, _ | _, _ | _⟩ | _ <;> rfl

theorem owned?_release (f : Frame) : f.release.owned? = none := by
  rcases f with ⟨_ | function, scope, _ | _, _ | _⟩ | _ <;> rfl

theorem kept?_retain (f : Frame) : f.retain.kept? = f.kept? := by
  rcases f with ⟨_ | function, scope, _ | _, _ | _⟩ | _ <;> rfl

theorem scope?_retain (f : Frame) : f.retain.scope? = f.scope? := by
  rcases f with ⟨_ | function, scope, _ | _, _ | _⟩ | _ <;> rfl

theorem owned?_retain (f : Frame) : f.retain.owned? = none := by
  rcases f with ⟨_ | function, scope, _ | _, _ | _⟩ | _ <;> rfl

theorem rename_release (image : Nat → Nat) (f : Frame) :
    f.release.rename image = (f.rename image).release := by
  rcases f with ⟨_ | function, scope, _ | _, _ | _⟩ | _ <;> rfl

theorem rename_retain (image : Nat → Nat) (f : Frame) :
    f.retain.rename image = (f.rename image).retain := by
  rcases f with ⟨_ | function, scope, _ | _, _ | _⟩ | _ <;> rfl

/-- Renaming sees only the scope of a frame. -/
theorem rename_congr {image image' : Nat → Nat} {f : Frame}
    (h : ∀ a, f.scope? = some a → image' a = image a) : f.rename image' = f.rename image := by
  cases f with
  | barrier => rfl
  | pooled function scope released retained =>
    show Frame.pooled function (image' scope) released retained = _
    rw [h scope rfl]
    rfl

/-- A frame whose body has gone on: its scope may have been left early, or captured. -/
inductive Goes : Frame → Frame → Prop
  | pooled (function : Option Nat) (scope : Nat) {released retained released' retained' : Bool} :
      (released = true → released' = true) → (retained = true → retained' = true) →
      Goes (.pooled function scope released retained) (.pooled function scope released' retained')
  | barrier : Goes .barrier .barrier

theorem Goes.refl (f : Frame) : Goes f f := by
  cases f with
  | pooled function scope released retained => exact .pooled function scope id id
  | barrier => exact .barrier

theorem Goes.trans {f g k : Frame} (h : Goes f g) (h' : Goes g k) : Goes f k := by
  cases h with
  | barrier => exact h'
  | pooled function scope h₁ h₂ =>
    cases h' with
    | pooled _ _ h₃ h₄ => exact .pooled function scope (h₃ ∘ h₁) (h₄ ∘ h₂)

theorem goes_release (f : Frame) : Goes f f.release := by
  rcases f with ⟨_ | function, scope, _ | _, _ | _⟩ | _ <;>
    first | exact .refl _ | exact .pooled _ _ nofun nofun

theorem goes_retain (f : Frame) : Goes f f.retain := by
  cases f with
  | barrier => exact .barrier
  | pooled function scope released retained => exact .pooled _ _ id fun _ => rfl

/-- What a frame owns it has owned before. -/
theorem Goes.owned? {f g : Frame} (h : Goes f g) {a : Nat} (ha : g.owned? = some a) :
    f.owned? = some a := by
  cases h with
  | barrier => exact ha
  | @pooled function scope released retained released' retained' h₁ h₂ =>
    cases function with
    | none => cases ha
    | some function =>
      cases released' <;> cases retained' <;> try cases ha
      have hreleased : released = false := by
        cases released with
        | false => rfl
        | true => cases h₁ rfl
      have hretained : retained = false := by
        cases retained with
        | false => rfl
        | true => cases h₂ rfl
      rw [hreleased, hretained]
      rfl

/-- The frames of a body that has gone on: at most the innermost one has changed. -/
inductive Running : List Frame → List Frame → Prop
  | nil : Running [] []
  | cons {f f' : Frame} (rest : List Frame) : f.Goes f' → Running (f :: rest) (f' :: rest)

theorem Running.refl (frames : List Frame) : Running frames frames := by
  cases frames with
  | nil => exact .nil
  | cons f rest => exact .cons rest (.refl f)

theorem Running.trans {fs gs ks : List Frame} (h : Running fs gs) (h' : Running gs ks) :
    Running fs ks := by
  cases h with
  | nil => exact h'
  | cons rest h =>
    cases h' with
    | cons _ h' => exact .cons rest (h.trans h')

theorem Running.eq_nil {fs : List Frame} (h : Running [] fs) : fs = [] := by
  cases h
  rfl

theorem Running.tail {fs gs : List Frame} (h : Running fs gs) : fs.tail = gs.tail := by
  cases h <;> rfl

theorem Running.owned? {fs gs : List Frame} (h : Running fs gs) {a : Nat}
    (ha : gs.head?.bind Frame.owned? = some a) : fs.head?.bind Frame.owned? = some a := by
  cases h with
  | nil => exact ha
  | cons rest h => exact h.owned? ha

end Frame

/-! ## Leaving a scope to the pool -/

/-- Leave to the pool what a frame owns. -/
def Pool.leave (p : Pool) : Frame → Pool
  | .pooled (some function) scope false false => p.release function scope
  | _ => p

/-- A pool that may keep nothing keeps nothing. -/
theorem Pool.leave_empty (f : Frame) : (Pool.empty 0).leave f = .empty 0 := by
  rcases f with ⟨_ | function, scope, _ | _, _ | _⟩ | _ <;> rfl

namespace Session

variable {s : Session} {f : Frame} {rest : List Frame}

theorem popFrame_eq (h : s.frames = f :: rest) :
    s.popFrame = { s with frames := rest, pool := s.pool.leave f } := by
  unfold popFrame
  rw [h]
  rcases f with ⟨_ | function, scope, _ | _, _ | _⟩ | _ <;> rfl

theorem releaseFrame_eq (h : s.frames = f :: rest) :
    s.releaseFrame = { s with frames := f.release :: rest, pool := s.pool.leave f } := by
  unfold releaseFrame
  obtain ⟨id, root, catalog, classes, pool, cancellation, parser?, mode, meter, calls, frames, resume,
    output⟩ := s
  dsimp only at h
  subst h
  rcases f with ⟨_ | function, scope, _ | _, _ | _⟩ | _ <;> rfl

theorem retainFrame_eq (h : s.frames = f :: rest) :
    s.retainFrame = { s with frames := f.retain :: rest } := by
  unfold retainFrame
  obtain ⟨id, root, catalog, classes, pool, cancellation, parser?, mode, meter, calls, frames, resume,
    output⟩ := s
  dsimp only at h
  subst h
  cases f <;> rfl

theorem releaseFrame_nil (h : s.frames = []) : s.releaseFrame = s := by
  unfold releaseFrame
  rw [h]

theorem retainFrame_nil (h : s.frames = []) : s.retainFrame = s := by
  unfold retainFrame
  rw [h]

end Session
end TreeScript
