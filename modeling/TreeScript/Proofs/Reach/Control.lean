import TreeScript.Proofs.Reach.Calls

/-
# Statements and nodes, within reach

A statement that goes on where a `yield` left it does so in a scope of the way back, which is within reach while a
body within reach runs; one that a `yield` leaves adds such a scope to the way back.  From all constructs follows
what an evaluation of a node does, by induction on the bound (`evaluator_ready`).
-/

namespace TreeScript
namespace Exec

variable {r : Reach} {ev : Evaluator} {inside : Prop} {v : Value} {args : List Value} {c i : Nat}

/-! ## The way back -/

theorem nextFrame_apply (ev : Evaluator) (s : State) :
    nextFrame ev s =
      match s.session.resume with
      | [] => (.value none, s)
      | f :: rest => (.value (some f), s.withResume rest) := by
  unfold nextFrame
  cases s.session.resume <;> rfl

/-- The frames of the way back are within reach. -/
theorem within_nextFrame : Within r ev True (fun frame => ∀ f ∈ frame, r.HasFrame f) nextFrame := by
  intro s hs hin
  have hheld (held : List Value) : (s.withHeld held).session = s.session := rfl
  have hresume := (hin trivial).resume
  simp only [nextFrame_apply, hheld]
  cases hframes : s.session.resume with
  | nil => exact ⟨⟨nofun, hs, .refl s⟩, fun _ _ => rfl⟩
  | cons f rest =>
    rw [hframes] at hresume
    have hkept : s.Kept (s.withResume rest) := by
      refine ⟨.refl _, fun g hg => ?_, rfl⟩
      rw [hframes]
      exact List.mem_cons_of_mem f hg
    refine ⟨⟨?_, { hs with }, hkept⟩, fun _ _ => rfl⟩
    rintro _ ⟨⟩
    exact hresume f List.mem_cons_self

theorem Reach.HasOutcome.passedBy {o : Outcome Value} {frame : ResumeFrame} (hframe : r.HasFrame frame)
    (h : r.HasOutcome r.Has o) : r.HasOutcome r.Has (passedBy frame o) := by
  rcases o with _ | (_ | _ | _ | _ | _ | _) | _ <;> try exact h
  exact ⟨h.1, List.forall_mem_cons.mpr ⟨hframe, h.2⟩⟩

theorem within_leavingFrame (frame : ResumeFrame) (hframe : r.HasFrame frame) {x : Exec Value}
    (hx : Within r ev inside r.Has x) : Within r ev inside r.Has (leavingFrame frame x) :=
  hx.mapOutcome fun _ h => Reach.HasOutcome.passedBy hframe h

theorem within_afterRound {rest : Exec Value} (hrest : Within r ev inside r.Has rest) {result : Option Value}
    (hresult : ∀ v ∈ result, r.Has v) : Within r ev inside r.Has (afterRound rest result) := by
  cases result with
  | none => exact hrest
  | some v => exact .give (hresult v rfl)

variable (R : r.Ready ev)
include R

/-! ## Blocks and branches -/

theorem within_runStatements (hc : r.scope c) (i : Nat) (hv : r.Has v) (es : List Node) :
    Within r ev True r.Has (runStatements c i v es) := by
  induction es generalizing i v with
  | nil =>
    unfold runStatements
    exact .give hv
  | cons e es ih =>
    unfold runStatements
    exact (within_leavingFrame (.inBlock i) trivial (R.eval e hc)).bind fun w hw => ih (i + 1) hw

theorem within_evalBlock (hc : r.scope c) (es : List Node) : Within r ev True r.Has (evalBlock es c) := by
  refine within_nextFrame.bind fun frame hframe => ?_
  split
  · exact within_runStatements R hc (v := .null) 0 trivial es
  · exact within_runStatements R hc (v := .null) _ trivial _
  · exact .fail _

theorem within_chooseArm (hc : r.scope c) (i : Nat) (arms : List (Node × Node)) :
    Within r ev True (fun _ => True) (chooseArm c i arms) := by
  induction arms generalizing i with
  | nil => exact .give trivial
  | cons arm arms ih =>
    refine (R.eval arm.1 hc).bind fun v hv => (within_toBool R hv).next fun b => ?_
    split
    · exact .give trivial
    · exact ih (i + 1)

theorem within_runArm (hc : r.scope c) (arms : List (Node × Node)) (otherwise : Option Node) (arm : Option Nat) :
    Within r ev True r.Has (runArm arms otherwise arm c) := by
  rw [runArm_eq]
  unfold enterArm
  split
  · exact within_leavingFrame (.inBranch arm c) hc (R.eval _ hc)
  · exact .fail _

omit R in
theorem within_newScope (hc : r.scope c) : Within r ev inside r.scope (make fun h => h.newScope c) :=
  .make fun _ H => ⟨H.scope_size, H.newScope hc⟩

theorem within_evalBranch (hc : r.scope c) (arms : List (Node × Node)) (otherwise : Option Node) :
    Within r ev True r.Has (evalBranch arms otherwise c) := by
  refine within_nextFrame.bind fun frame hframe => ?_
  split
  · exact within_runArm R (hframe _ rfl) arms otherwise _
  · exact .fail _
  · refine (within_chooseArm R hc 0 arms).next fun arm => ?_
    split
    · exact .give trivial
    · exact (within_newScope hc).bind fun inner hinner => within_runArm R hinner arms otherwise arm

/-! ## Loops -/

theorem within_runRound (frame : ResumeFrame) (hframe : r.HasFrame frame) (hc : r.scope c) (body : Node) :
    Within r ev True (fun result => ∀ v ∈ result, r.Has v) (runRound frame body c) := by
  refine (within_leavingFrame frame hframe (R.eval body hc)).mapOutcome fun o h => ?_
  rcases o with _ | (_ | _ | _ | _ | _ | _) | _ <;> try exact h
  all_goals
    rintro _ ⟨⟩
    try exact h

omit R in
theorem within_fuel : Within r ev inside (fun _ => True) fuel :=
  fun s hs _ => ⟨⟨trivial, hs, .refl s⟩, fun _ _ => rfl⟩

theorem within_whileRounds (hc : r.scope c) (cond body : Node) (fuel : Nat) (resumed : Option Nat)
    (hresumed : ∀ inner ∈ resumed, r.scope inner) :
    Within r ev True r.Has (whileRounds cond body c fuel resumed) := by
  induction fuel generalizing resumed with
  | zero => exact .halt _
  | succ fuel ih =>
    have hround {inner : Nat} (hinner : r.scope inner) :
        Within r ev True r.Has (whileRounds cond body c (fuel + 1) (some inner)) := by
      -- left by a `yield`, the round is taken up again in its scope: this is what the frame says
      rw [whileRounds_resumed]
      exact (within_runRound R (.inWhile inner) hinner hinner body).bind fun result hresult =>
        within_afterRound (ih none nofun) hresult
    cases resumed with
    | some inner => exact hround (hresumed inner rfl)
    | none =>
      rw [whileRounds_begin]
      refine (R.eval cond hc).bind fun v hv => (within_toBool R hv).next fun b => ?_
      split
      · exact (within_newScope hc).bind fun inner hinner => hround hinner
      · exact .give trivial

theorem within_evalWhile (hc : r.scope c) (cond body : Node) : Within r ev True r.Has (evalWhile cond body c) := by
  refine within_nextFrame.bind fun frame hframe => ?_
  split
  · refine within_fuel.next fun n => within_whileRounds R hc cond body n (some _) ?_
    rintro _ ⟨⟩
    exact hframe _ rfl
  · exact .fail _
  · exact within_fuel.next fun n => within_whileRounds R hc cond body n none nofun

theorem within_rangeBound (hv : r.Has v) : Within r ev inside (fun _ => True) (rangeBound v) := by
  refine (within_castValue R hv .long).next fun w => ?_
  split
  · exact .give trivial
  · exact within_typeMismatch _ _

theorem within_rangeRounds (hc : r.scope c) (name : String) (ty : TypeKind) (direction : RangeDirection)
    (stop : Int64) (body : Node) (fuel : Nat) (current : Int64) (resumed : Option Nat)
    (hresumed : ∀ inner ∈ resumed, r.scope inner) :
    Within r ev True r.Has (rangeRounds name ty direction stop body c fuel current resumed) := by
  induction fuel generalizing current resumed with
  | zero => exact .halt _
  | succ fuel ih =>
    have hrest : Within r ev True r.Has (rangeRest name ty direction stop body c fuel current) := by
      unfold rangeRest
      split
      · exact ih _ none nofun
      · exact .give trivial
    -- a round goes on alike whether its scope is new or that of a round that was left by a `yield`
    have hround {inner : Nat} (hinner : r.scope inner) :
        Within r ev True r.Has (rangeRounds name ty direction stop body c (fuel + 1) current (some inner)) := by
      rw [rangeRounds_resumed]
      split
      · exact (within_runRound R (.inRange inner current stop) hinner hinner body).bind fun result hresult =>
          within_afterRound hrest hresult
      · exact .give trivial
    cases resumed with
    | some inner => exact hround (hresumed inner rfl)
    | none =>
      rw [rangeRounds_begin]
      split
      · refine (within_newScope hc).bind fun inner hinner => ?_
        refine (within_coerce R (v := .long current) trivial ty).bind fun w hw => ?_
        exact (Within.modifyHeap fun h H => H.declare hinner ty hw).next fun _ => hround hinner
      · exact .give trivial

theorem within_evalRange (hc : r.scope c) (name : String) (ty : TypeKind) (start stop : Node)
    (direction : RangeDirection) (body : Node) :
    Within r ev True r.Has (evalRange name ty start stop direction body c) := by
  refine within_nextFrame.bind fun frame hframe => ?_
  split
  · refine within_fuel.next fun n => within_rangeRounds R hc name ty direction _ body n _ (some _) ?_
    rintro _ ⟨⟩
    exact hframe _ rfl
  · exact .fail _
  · refine (R.eval start hc).bind fun v hv => (R.eval stop hc).bind fun w hw => ?_
    refine (within_rangeBound R hv).next fun first => (within_rangeBound R hw).next fun last => ?_
    exact within_fuel.next fun n => within_rangeRounds R hc name ty direction last body n first none nofun

omit R in
theorem within_eachSource (hv : r.Has v) : Within r ev inside r.HasSource (eachSource v) := by
  have hitems {f : Heap → List Value} (hf : ∀ h, h.Confined r → ∀ v ∈ f h, r.Has v) :
      Within r ev inside r.HasSource (do return .items (← heap f)) :=
    (Within.heap hf).bind fun items h => .give h
  unfold eachSource
  split
  · exact hitems fun h H => H.toList hv
  · exact hitems fun h H => H.toList hv
  · exact hitems fun h H => H.keys hv
  · refine .give fun u hu => ?_
    obtain ⟨unit, -, rfl⟩ := List.mem_map.mp hu
    trivial
  · exact .give hv
  · exact within_typeMismatch _ _

theorem within_nextItem {source : EachSource} (hsource : r.HasSource source) :
    Within r ev True (fun item => ∀ p ∈ item, r.Has p.1 ∧ r.HasSource p.2) (nextItem source) := by
  unfold nextItem
  split
  · exact .give nofun
  · obtain ⟨hv, hrest⟩ := List.forall_mem_cons.mp hsource
    refine .give ?_
    rintro _ ⟨⟩
    exact ⟨hv, hrest⟩
  · refine (Within.plain _).next fun finished => ?_
    split
    · exact .give nofun
    · refine (within_resumeCoroutine R hsource).bind fun v hv => .give ?_
      rintro _ ⟨⟩
      exact ⟨hv, hsource⟩

omit R in
/-- A scope inside another that binds a name. -/
theorem within_newScopeWith (hc : r.scope c) (name : String) (hv : r.Has v) :
    Within r ev inside r.scope (make fun h =>
      let (inner, h) := h.newScope c
      (inner, h.declare inner name .any v)) :=
  .make fun _ H => ⟨H.scope_size, (H.newScope hc).declare H.scope_size .any hv⟩

theorem within_eachRounds (hc : r.scope c) (name : String) (body : Node) (fuel : Nat) {source : EachSource}
    (hsource : r.HasSource source) (resumed : Option Nat) (hresumed : ∀ inner ∈ resumed, r.scope inner) :
    Within r ev True r.Has (eachRounds name body c fuel source resumed) := by
  induction fuel generalizing source resumed with
  | zero => exact .halt _
  | succ fuel ih =>
    have hround {source : EachSource} (hsource : r.HasSource source) {inner : Nat} (hinner : r.scope inner) :
        Within r ev True r.Has (eachRounds name body c (fuel + 1) source (some inner)) := by
      rw [eachRounds_resumed]
      exact (within_runRound R (.inEach inner source) ⟨hinner, hsource⟩ hinner body).bind fun result hresult =>
        within_afterRound (ih hsource none nofun) hresult
    cases resumed with
    | some inner => exact hround hsource (hresumed inner rfl)
    | none =>
      rw [eachRounds_begin]
      refine (within_nextItem R hsource).bind fun item hitem => ?_
      unfold beginItem
      split
      · exact .give trivial
      · obtain ⟨hv, hrest⟩ := hitem _ rfl
        exact (within_newScopeWith hc name hv).bind fun inner hinner => hround hrest hinner

theorem within_evalEach (hc : r.scope c) (name : String) (iterable body : Node) :
    Within r ev True r.Has (evalEach name iterable body c) := by
  refine within_nextFrame.bind fun frame hframe => ?_
  split
  · obtain ⟨hinner, hsource⟩ := hframe _ rfl
    refine within_fuel.next fun n => within_eachRounds R hc name body n hsource (some _) ?_
    rintro _ ⟨⟩
    exact hinner
  · exact .fail _
  · refine (R.eval iterable hc).bind fun v hv => (within_eachSource hv).bind fun source hsource => ?_
    exact within_fuel.next fun n => within_eachRounds R hc name body n hsource none nofun

/-! ## Jumps -/

theorem within_evalOptional (hc : r.scope c) (e : Option Node) : Within r ev True r.Has (evalOptional e c) := by
  cases e with
  | none => exact .give trivial
  | some e => exact R.eval e hc

omit R in
theorem within_enterNode : Within r ev inside (fun _ => True) enterNode := by
  intro s hs _
  have hheld (held : List Value) : (s.withHeld held).session = s.session := rfl
  simp only [enterNode_apply, hheld]
  split
  · exact ⟨⟨trivial, hs, .refl s⟩, fun _ _ => rfl⟩
  · split
    · exact ⟨⟨trivial, { hs with }, { State.Kept.refl s with }⟩, fun _ _ => rfl⟩
    · exact ⟨⟨trivial, { hs with }, { State.Kept.refl s with }⟩, fun _ _ => rfl⟩

omit R in
theorem within_returning {x : Exec Value} (hx : Within r ev inside r.Has x) :
    Within r ev inside r.Has (returning x) :=
  hx.bind fun _ hv => .raise hv

theorem within_evalReturn (hc : r.scope c) (value : Option Node) :
    Within r ev True r.Has (evalReturn value c) := by
  have hother := within_returning (within_evalOptional R hc value)
  cases value with
  | none => exact hother
  | some e =>
    -- a call that is the result leaves the scope of the caller early
    cases e with
    | call site name es =>
      have heq : evalReturn (some (.call site name es)) c =
          enterNode >>= fun _ => returning (evalCall site name es c true) := by
        simp only [evalReturn, returning]
      rw [heq]
      exact within_enterNode.next fun _ => within_returning (within_evalCall R hc site name es true)
    | _ => exact hother

theorem within_evalYield (hc : r.scope c) (value : Option Node) : Within r ev True r.Has (evalYield value c) := by
  refine within_nextFrame.bind fun frame hframe => ?_
  split
  · exact .give trivial
  · exact .fail _
  · refine (within_evalOptional R hc value).bind fun v hv => .raise ⟨hv, ?_⟩
    exact List.forall_mem_singleton.mpr trivial

/-! ## Exceptions -/

theorem within_evalThrow (hc : r.scope c) (value : Node) : Within r ev True r.Has (evalThrow value c) := by
  refine (R.eval value hc).bind fun v hv => (Within.plain _).next fun b => ?_
  split
  · exact .raise hv
  · exact .fail _

theorem within_exceptionFrom (e : EvalError) : Within r ev True r.Has (exceptionFrom e) := by
  have hread : Within r ev True (fun found => ∀ cls ∈ found, r.HasClass cls)
      (session fun s => s.classes.find? exceptionClass) :=
    .session fun s hs cls hcls => hs.classes exceptionClass cls hcls
  refine hread.bind fun found hfound => ?_
  cases found with
  | none => exact .raise trivial
  | some cls =>
    have hargs : ∀ v ∈ [Value.str e.message], r.Has v := List.forall_mem_singleton.mpr trivial
    exact (within_instantiate R (hfound cls rfl) _ hargs).settle

theorem within_runHandler (hc : r.scope c) (handler : Node) : Within r ev True r.Has (runHandler handler c) := by
  refine within_leavingFrame (.inTry (some c)) ?_ (R.eval handler hc)
  rintro _ ⟨⟩
  exact hc

theorem within_handleException (hc : r.scope c) (name : String) (handler : Node) (hv : r.Has v) :
    Within r ev True r.Has (handleException name handler c v) :=
  (within_newScopeWith hc name hv).bind fun _ hinner => within_runHandler R hinner handler

theorem within_runTry (hc : r.scope c) (body : Node) (name : String) (handler : Node) :
    Within r ev True r.Has (runTry body name handler c) := by
  have hbody : Within r ev True r.Has (leavingFrame (.inTry none) (eval body c)) :=
    within_leavingFrame (.inTry none) (fun _ h => by cases h) (R.eval body hc)
  refine hbody.handle fun g hg y hy => ?_
  cases g with
  | throwValue v =>
    cases hy
    exact within_handleException R hc name handler hg
  | error e =>
    dsimp only at hy
    split at hy
    · cases hy
      exact (within_exceptionFrom R e).bind fun v hv => within_handleException R hc name handler hv
    · cases hy
  | _ => cases hy

theorem within_evalTry (hc : r.scope c) (body : Node) (name : String) (handler : Node) :
    Within r ev True r.Has (evalTry body name handler c) := by
  refine within_nextFrame.bind fun frame hframe => ?_
  split
  · exact within_runHandler R (hframe _ rfl _ rfl) handler
  · exact within_runTry R hc body name handler
  · exact within_runTry R hc body name handler
  · exact .fail _

end Exec

/-! ## Declarations -/

section
variable {r : Reach}

/-- A routine of a declaration is none that gives a value. -/
theorem Reach.hasRoutine_ofDecl (d : FunctionDecl Node) : r.HasRoutine (.ofDecl d) := by
  intro v h
  unfold Routine.ofDecl at h
  dsimp only at h
  split at h <;> cases h

theorem Reach.hasClass_build {d : ClassDecl Node} {known : String → Option ClassDef} {c : ClassDef}
    (hbuild : ClassDef.build d known = .ok c) (hknown : ∀ name b, known name = some b → r.HasClass b) :
    r.HasClass c := by
  obtain ⟨supers, hsupers, -, hmethods, -⟩ := ClassDef.exists_of_build hbuild
  unfold Reach.HasClass
  rw [hmethods]
  refine ClassDef.all_inheritTables (fun s hs => ?_) ?_
  · obtain ⟨name, hname⟩ := hsupers s hs
    exact hknown name s hname
  · exact (Table.all_empty _).insertAll _ _ fun m _ => hasRoutine_ofDecl m

theorem Reach.hasFunction_constructorsOf {c : ClassDef} (hc : r.HasClass c) :
    ∀ f ∈ Session.constructorsOf c, r.HasFunction f := by
  intro f hf
  unfold Session.constructorsOf at hf
  split at hf
  · cases List.mem_singleton.mp hf
    exact hc
  · obtain ⟨_, -, rfl⟩ := List.mem_map.mp hf
    exact hc

theorem State.Confined.addFunction {s : State} (hs : s.Confined r) {f : Function} (hf : r.HasFunction f) :
    (s.withSession (s.session.addFunction f)).Confined r := by
  refine { hs with functions := fun slot g hg => ?_ }
  rcases Catalog.eq_or_get?_of_add hg with rfl | hg
  · exact hf
  · exact hs.functions slot g hg

theorem State.Confined.addFunctions {s : State} (hs : s.Confined r) {fs : List Function}
    (hfs : ∀ f ∈ fs, r.HasFunction f) :
    (s.withSession (fs.foldl Session.addFunction s.session)).Confined r ∧
      s.Kept (s.withSession (fs.foldl Session.addFunction s.session)) := by
  refine List.foldlRecOn
    (motive := fun t : Session => (s.withSession t).Confined r ∧ s.Kept (s.withSession t)) fs _ ⟨hs, .refl s⟩ ?_
  rintro t ⟨ht, hkept⟩ f hf
  exact ⟨ht.addFunction (hfs f hf), hkept.frames, hkept.resume, hkept.held⟩

/-- A class over classes of the session is one of it from then on. -/
theorem State.Confined.defineClass {s : State} (hs : s.Confined r) {d : ClassDecl Node} {t : Session}
    (h : s.session.defineClass d = .ok t) : (s.withSession t).Confined r ∧ s.Kept (s.withSession t) := by
  obtain ⟨cls, hbuild, hadd⟩ := ClassDef.exists_of_bind h
  have hcls : r.HasClass cls := Reach.hasClass_build hbuild hs.classes
  obtain ⟨-, rfl⟩ := Session.addClass_eq_ok.mp hadd
  have hknown : (s.withSession
      { s.session with classes := s.session.classes.insert cls.name cls }).Confined r := by
    refine { hs with classes := fun name c hc => ?_ }
    change (s.session.classes.insert cls.name cls).find? name = some c at hc
    rw [Table.find?_insert] at hc
    split at hc
    · cases hc
      exact hcls
    · exact hs.classes name c hc
  obtain ⟨hconfined, hkept⟩ := hknown.addFunctions (Reach.hasFunction_constructorsOf hcls)
  exact ⟨hconfined, hkept.frames, hkept.resume, hkept.held⟩

end

namespace Exec

variable {r : Reach} {ev : Evaluator} {inside : Prop} {c : Nat}

theorem within_functionDef (d : FunctionDecl Node) :
    Within r ev inside (fun _ => True) (modifySession fun s => s.addFunction (.routine (.ofDecl d))) :=
  .modifySession fun _ hs _ => ⟨hs.addFunction (Reach.hasRoutine_ofDecl d), ⟨.refl _, fun _ h => h, rfl⟩⟩

theorem within_classDef (d : ClassDecl Node) :
    Within r ev inside r.Has (do
      let s ← ofExcept (← session fun s => s.defineClass d)
      modifySession fun _ => s
      return .null) := by
  intro s hs _
  have hheld (held : List Value) : (s.withHeld held).session = s.session := rfl
  simp only [bind_apply, session, hheld]
  cases hdefine : s.session.defineClass d with
  | error e => exact ⟨⟨trivial, hs, .refl s⟩, fun _ _ => rfl⟩
  | ok t =>
    obtain ⟨hconfined, hkept⟩ := hs.defineClass hdefine
    exact ⟨⟨trivial, hconfined, hkept⟩, fun _ _ => rfl⟩

/-! ## Nodes -/

variable (R : r.Ready ev)
include R

theorem within_dispatch (hc : r.scope c) (e : Node) : Within r ev True r.Has (dispatch e c) := by
  cases e with
  | literal l => exact .give (by cases l <;> trivial)
  | template text => exact within_evalTemplate R hc text
  | var x => exact .heap fun h H => H.read hc
  | this => exact .heap fun h H => H.read hc
  | listLiteral es => exact (within_evalAll R hc es).bind fun vs hvs => within_newList hvs
  | mapLiteral es =>
    exact (within_evalEntries R hc es Reach.hasMap_empty).bind fun m hm => .make fun h H => H.newMap hm
  | lambda params body => exact within_capture (k := .lambda params body c) hc
  | declare ty x e => exact within_evalDeclare R hc ty x e
  | assign x e => exact within_evalAssign R hc x e
  | delete x => exact (Within.modifyHeap fun h H => H.unbind hc).next fun _ => .give trivial
  | constObject cls x e => exact within_evalConstObject R hc cls x e
  | binary op left right => exact within_evalBinary R hc op left right
  | unary op e => exact (R.eval e hc).bind fun v hv => within_applyUnary R op hv
  | ternary cond yes no =>
    refine (R.eval cond hc).bind fun v hv => (within_toBool R hv).next fun b => ?_
    split
    · exact R.eval yes hc
    · exact R.eval no hc
  | index e keys =>
    refine (R.eval e hc).bind fun v hv => (within_evalAll R hc keys).bind fun ks hks => ?_
    exact within_walk R true _ hv hks
  | indexAssign e keys new =>
    refine (R.eval e hc).bind fun v hv => (within_evalAll R hc keys).bind fun ks hks => ?_
    exact (R.eval new hc).bind fun w hw => within_indexSet R hv hks hw
  | field e x => exact within_evalField R hc e x
  | fieldAssign e x new => exact within_evalFieldAssign R hc e x new
  | call site f es => exact within_evalCall R hc site f es false
  | methodCall e m es => exact within_evalMethodCall R hc e m es
  | block es => exact within_evalBlock R hc es
  | branch arms otherwise => exact within_evalBranch R hc arms otherwise
  | whileLoop cond body => exact within_evalWhile R hc cond body
  | forRange x ty a b direction body => exact within_evalRange R hc x ty a b direction body
  | forEach x e body => exact within_evalEach R hc x e body
  | breakWith e => exact (within_evalOptional R hc e).bind fun v hv => .raise hv
  | continueLoop => exact .raise trivial
  | returnWith e => exact within_evalReturn R hc e
  | yieldWith e => exact within_evalYield R hc e
  | throwValue e => exact within_evalThrow R hc e
  | tryCatch body x handler => exact within_evalTry R hc body x handler
  | functionDef d => exact (within_functionDef d).next fun _ => .give trivial
  | classDef d => exact within_classDef d

end Exec

/-- Evaluations stay within reach, with whatever bound. -/
theorem Reach.evaluator_ready (r : Reach) (n : Nat) : r.Ready (evaluator n) := by
  have hentering (n : Nat) (params : List Param) (args : List Value) :
      Exec.Within r (evaluator n) True (fun _ => True) (Exec.entering params args) :=
    fun s hs _ => ⟨⟨trivial, hs, .refl s⟩, fun _ _ => rfl⟩
  -- with a bound of `n + 1` the nodes inside a node are evaluated with a bound of `n`
  induction n with
  | zero => exact ⟨fun _ _ _ s hs _ => ⟨⟨trivial, hs, .refl s⟩, fun _ _ => rfl⟩, hentering 0⟩
  | succ n ih =>
    refine ⟨fun e c hc => ?_, hentering (n + 1)⟩
    have hnode : Exec.Within r (evaluator n) True r.Has (Exec.evalNode e c) :=
      Exec.within_enterNode.next fun _ => Exec.within_dispatch ih hc e
    exact hnode

end TreeScript
