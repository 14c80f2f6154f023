import TreeScript.Proofs.Generators.Legs
import TreeScript.Proofs.Simulation.Node

/-
# Statements, leg by leg

Statement by statement, the legs of a node with yields make up the course of the same node run straight
through.  The induction is on the bound of the evaluator, which is smaller for the parts of a node; a
loop needs another one, on the states in which the run is still to be resumed and the rounds that its
bound allows.
-/

namespace TreeScript

open Exec

variable {reads : ExpressionParser → Prop} {i : Nat} {c : Coroutine}

/-! ## What comes before a statement -/

namespace Exec

section
variable (hc : c.state = .running) (n : Nat)
include hc

theorem quiet_enterNode (ev : Evaluator) : Quiet reads i c ev enterNode :=
  .of_agrees ((Invariant.calm_kept hc).lawful.enterNode ev ev)

theorem quiet_reenter (ev : Evaluator) (k : Nat) : Quiet reads i c ev (reenter k) := by
  induction k with
  | zero => exact .pure ()
  | succ k ih => exact .bind ih fun _ => quiet_enterNode hc ev

theorem ready_calm : (Invariant.calm reads i c).toSimulation.Ready (evaluator n) (evaluator n) :=
  Invariant.ready_activation (Activation.open_isYield reads) hc n

theorem quiet_eval {e : Node} (he : e.YieldFree reads) (scope : Nat) :
    Quiet reads i c (evaluator n) (eval e scope) :=
  .of_agrees ((ready_calm hc n).eval (fun _ => he) rfl)

theorem quiet_dispatch {e : Node} (he : e.YieldFree reads) (scope : Nat) :
    Quiet reads i c (evaluator n) (dispatch e scope) :=
  .of_agrees (Simulation.agrees_dispatch_of_steady (Invariant.calm_kept hc).lawful
    (ready_calm hc n) rfl (fun _ => he) fun h => h)

theorem quiet_evalOptional {value : Option Node} (h : ∀ e ∈ value, e.YieldFree reads) (scope : Nat) :
    Quiet reads i c (evaluator n) (evalOptional value scope) := by
  cases value with
  | none => exact .pure _
  | some e => exact quiet_eval hc n (h e rfl) scope

theorem quiet_toBool (v : Value) : Quiet reads i c (evaluator n) (toBool v) :=
  .of_agrees (Simulation.agrees_toBool (Invariant.calm_kept hc).lawful
    (ready_calm hc n) v)

theorem quiet_newScope (scope : Nat) :
    Quiet reads i c (evaluator n) (make fun h => h.newScope scope) :=
  .of_agrees ((Simulation.Run.newScope (Invariant.calm_kept hc).lawful rfl).weaken
    fun _ _ _ h => h.1)

theorem quiet_newScopeWith (scope : Nat) (x : String) (v : Value) :
    Quiet reads i c (evaluator n) (make fun h =>
      let (inner, h) := h.newScope scope
      (inner, h.declare inner x .any v)) :=
  have hv : (Invariant.calm reads i c).suits ⟨[], true⟩ .any v := trivial
  .of_agrees ((Simulation.Run.newScopeWith (Invariant.calm_kept hc).lawful rfl x hv).weaken
    fun _ _ _ h => h.1)

theorem quiet_coerce (v : Value) (ty : TypeKind) : Quiet reads i c (evaluator n) (coerce v ty) :=
  .of_agrees (Simulation.converts_coerce (Invariant.calm_kept hc).lawful (ready_calm hc n)
    _ v ty).agrees

theorem quiet_declare (scope : Nat) (x : String) (ty : TypeKind) (v : Value) :
    Quiet reads i c (evaluator n) (modifyHeap fun h => h.declare scope x ty v) :=
  have hv : (Invariant.calm reads i c).suits ⟨[], true⟩ ty v := trivial
  .of_agrees (Simulation.Run.declare (Invariant.calm_kept hc).lawful rfl x hv)

theorem quiet_rangeBound (v : Value) : Quiet reads i c (evaluator n) (rangeBound v) :=
  .of_agrees (Simulation.agrees_rangeBound (Invariant.calm_kept hc).lawful
    (ready_calm hc n) v)

theorem quiet_eachSource (v : Value) : Quiet reads i c (evaluator n) (eachSource v) :=
  .of_agrees (Simulation.agrees_eachSource (Invariant.calm_kept hc).lawful v)

theorem quiet_nextItem (source : EachSource) : Quiet reads i c (evaluator n) (nextItem source) :=
  .of_agrees (Simulation.agrees_nextItem (Invariant.calm_kept hc).lawful
    (ready_calm hc n) source)

theorem quiet_exceptionFrom (e : EvalError) : Quiet reads i c (evaluator n) (exceptionFrom e) :=
  .of_agrees (Simulation.agrees_exceptionFrom (Invariant.calm_kept hc).lawful
    (ready_calm hc n) e)

theorem quiet_chooseArm {arms : List (Node × Node)} (h : ∀ arm ∈ arms, arm.1.YieldFree reads)
    (scope k : Nat) : Quiet reads i c (evaluator n) (chooseArm scope k arms) :=
  .of_agrees (Simulation.agrees_chooseArm (Invariant.calm_kept hc).lawful
    (ready_calm hc n) rfl k fun arm ha _ => h arm ha)

/-! Rounds begin without a `yield`. -/

theorem quiet_beginWhile {cond : Node} (hcond : cond.YieldFree reads) (scope : Nat) (u : Unit) :
    Quiet reads i c (evaluator n) (beginWhile cond scope u) := by
  refine .bind (quiet_eval hc n hcond scope) fun v => .bind (quiet_toBool hc n v) fun b => ?_
  cases b with
  | true => exact .bind (quiet_newScope hc n scope) fun _ => .pure _
  | false => exact .pure _

theorem quiet_beginRange (x : String) (ty : TypeKind) (direction : RangeDirection) (stop : Int64)
    (scope : Nat) (current : Int64) :
    Quiet reads i c (evaluator n) (beginRange x ty direction stop scope current) := by
  unfold beginRange
  split
  · exact .bind (quiet_newScope hc n scope) fun inner => .bind (quiet_coerce hc n _ ty) fun v =>
      .bind (quiet_declare hc n inner x ty v) fun _ => .pure _
  · exact .pure _

theorem quiet_beginEach (x : String) (scope : Nat) (source : EachSource) :
    Quiet reads i c (evaluator n) (beginEach x scope source) := by
  refine .bind (quiet_nextItem hc n source) fun item => ?_
  cases item with
  | none => exact .pure _
  | some item => exact .bind (quiet_newScopeWith hc n scope x item.1) fun _ => .pure _

end

/-! ## What comes after a part -/

/-- Go on with the outcome of an evaluation. -/
def sequel {α β : Type} (f : α → Exec β) (ev : Evaluator) : Outcome α × State → Outcome β × State
  | (.value a, t) => f a ev t
  | (.signal g, t) => (.signal g, t)
  | (.halted h, t) => (.halted h, t)

theorem bind_eq_sequel {α β : Type} (x : Exec α) (f : α → Exec β) (ev : Evaluator) (s : State) :
    (x >>= f) ev s = sequel f ev (x ev s) := by
  rw [bind_apply]
  rcases x ev s with ⟨_ | _ | _, t⟩ <;> rfl

/-- Go on where a signal is taken. -/
def taken {α : Type} (take : Signal → Option (Exec α)) (ev : Evaluator) :
    Outcome α × State → Outcome α × State
  | (.signal g, t) => ((take g).getD (raise g)) ev t
  | r => r

/-- What a sequence gives, its second part gives after the first one. -/
theorem of_bind_eq_value {α β : Type} {x : Exec α} {f : α → Exec β} {ev : Evaluator} {s t : State}
    {b : β} (h : (x >>= f) ev s = (.value b, t)) :
    ∃ a u, x ev s = (.value a, u) ∧ f a ev u = (.value b, t) := by
  rw [bind_apply] at h
  generalize x ev s = r at h ⊢
  rcases r with ⟨a | _ | _, u⟩
  · exact ⟨a, u, rfl, h⟩
  · cases h
  · cases h

theorem handle_eq_taken {α : Type} (x : Exec α) (take : Signal → Option (Exec α)) (ev : Evaluator)
    (s : State) : handle x take ev s = taken take ev (x ev s) := by
  unfold handle
  rcases x ev s with ⟨_ | g | _, t⟩
  · rfl
  · show _ = ((take g).getD (raise g)) ev t
    dsimp only
    cases take g <;> rfl
  · rfl

theorem passes_sequel (f : Value → Exec Value) (ev : Evaluator) : Passes (sequel f ev) where
  yieldValue _ _ _ := rfl
  error _ _ _ := rfl
  halted _ _ := rfl

theorem passes_id : Passes id where
  yieldValue _ _ _ := rfl
  error _ _ _ := rfl
  halted _ _ := rfl

/-- What a loop does when the body of a round has ended. -/
def endRound (f : Option Value → Exec Value) (ev : Evaluator) (r : Outcome Value × State) :
    Outcome Value × State :=
  sequel f ev (roundEnd r.1, r.2)

theorem passes_endRound (f : Option Value → Exec Value) (ev : Evaluator) : Passes (endRound f ev) where
  yieldValue _ _ _ := rfl
  error _ _ _ := rfl
  halted _ _ := rfl

theorem runRound_bind_eq (frame : ResumeFrame) (body : Node) (scope : Nat)
    (f : Option Value → Exec Value) (ev : Evaluator) (s : State) :
    (runRound frame body scope >>= f) ev s = endRound f ev (passed (some frame) (ev.eval body scope s)) :=
  bind_eq_sequel _ f ev s

/-- A statement that has no way back begins. -/
theorem nextFrame_bind {s : State} (h : s.session.resume = []) {α : Type}
    (f : Option ResumeFrame → Exec α) (ev : Evaluator) : (nextFrame >>= f) ev s = f none ev s := by
  rw [bind_apply, nextFrame, h]

end Exec

/-! ## Parts -/

/-- With a bound, the legs of all nodes of a kind make up the courses of these nodes in a way to run them
straight through. -/
def Follows (reads : ExpressionParser → Prop) (i : Nat) (c : Coroutine) (kind : Node → Prop)
    (run : Nat → Node → Nat → Straight Value) (n : Nat) : Prop :=
  ∀ (depth : Nat) (e : Node) (scope : Nat) (outs : List State) (s : State), kind e →
    s.Calm reads i c → (∀ t ∈ outs, t.Calm reads i c) →
    Tracks reads i c (leg n depth e scope) outs (evaluateNode n e scope s) (run depth e scope s outs)

section
variable {kind : Node → Prop} {run : Nat → Node → Nat → Straight Value}
variable {n : Nat} (ih : Follows reads i c kind run n)
include ih

/-- A part of a statement comes first, which the statement finds again by a frame. -/
theorem Follows.part {depth : Nat} {e p : Node} {scope inner : Nat} {frame : Option ResumeFrame}
    {k : Outcome Value × State → Outcome Value × State} (hk : Passes k)
    (hresume : ∀ fs (s : State), dispatch e scope (evaluator n) (s.withResume (frame.toList ++ fs)) =
      k (passed frame (evaluateNode n p inner (s.withResume fs))))
    (hp : kind p) {outs : List State} (houts : ∀ t ∈ outs, t.Calm reads i c) {s : State}
    (hs : s.Calm reads i c) {g : Outcome Value → Straight Value}
    (hnext : ∀ (outs : List State) r, (∀ t ∈ outs, t.Calm reads i c) → r.1.isYield = false →
      r.2.Calm reads i c → Tracks reads i c (leg (n + 1) depth e scope) outs (k r) (g r.1 r.2 outs)) :
    Tracks reads i c (leg (n + 1) depth e scope) outs (k (passed frame (evaluateNode n p inner s)))
      ((run (depth + 1) p inner).andThen g s outs) := by
  have hinner := ih (depth + 1) p inner outs s hp hs houts
  refine .passed hk hk (leg_frame hk hresume) hinner (fun r hr ht => hnext outs r houts hr ht) ?_
  intro j r _ _ hr ht
  exact hnext (outs.drop j) r (fun t h => houts t (List.mem_of_mem_drop h)) hr ht

/-! ## Blocks -/

theorem Follows.statements {depth : Nat} {es : List Node} {scope : Nat} (hes : ∀ e ∈ es, kind e)
    {rest : List Node} {k : Nat} (hdrop : es.drop k = rest) (last : Value) {outs : List State}
    (houts : ∀ t ∈ outs, t.Calm reads i c) {s : State} (hs : s.Calm reads i c) :
    Tracks reads i c (leg (n + 1) depth (.block es) scope) outs
      (runStatements scope k last rest (evaluator n) s)
      (Straight.statements (run (depth + 1)) scope last rest s outs) := by
  induction rest generalizing k last outs s with
  | nil => exact .give rfl hs
  | cons e rest ihrest =>
    have hrest : es.drop (k + 1) = rest := by
      rw [← List.tail_drop, hdrop, List.tail_cons]
    have hrun : ∀ last (t : State), runStatements scope k last (e :: rest) (evaluator n) t =
        sequel (fun v => runStatements scope (k + 1) v rest) (evaluator n)
          (passed (some (.inBlock k)) (evaluateNode n e scope t)) := fun last t => bind_eq_sequel _ _ _ t
    have he : e ∈ es := List.mem_of_mem_drop (hdrop ▸ List.mem_cons_self)
    rw [hrun]
    refine ih.part (passes_sequel _ _) (fun fs t => ?_) (hes e he) houts hs ?_
    · -- the block goes on with the statement that was left, and the ones after it
      show runStatements scope k .null (es.drop k) (evaluator n) (t.withResume fs) = _
      rw [hdrop, hrun]
    · intro outs r houts hr ht
      rcases r with ⟨v | g | h, t⟩
      · exact ihrest hrest v houts ht
      · exact .give hr ht
      · exact .give rfl ht

theorem Follows.block {depth : Nat} {es : List Node} (scope : Nat) (hes : ∀ e ∈ es, kind e)
    {outs : List State} (houts : ∀ t ∈ outs, t.Calm reads i c) {s : State} (hs : s.Calm reads i c) :
    Tracks reads i c (leg (n + 1) depth (.block es) scope) outs
      (dispatch (.block es) scope (evaluator n) s)
      (Straight.dispatch (evaluator n) (run (depth + 1)) depth (.block es) scope s outs) := by
  show Tracks reads i c _ outs (evalBlock es scope (evaluator n) s) _
  unfold evalBlock
  rw [nextFrame_bind hs.resume]
  exact ih.statements hes rfl .null houts hs

/-! ## Branches -/

omit ih in
/-- The arm that is chosen is there. -/
theorem chooseArm_lt {scope k : Nat} {arms : List (Node × Node)} {ev : Evaluator} {s t : State}
    {m : Nat} (h : chooseArm scope k arms ev s = (.value (some m), t)) :
    k ≤ m ∧ m < k + arms.length := by
  induction arms generalizing k s with
  | nil => cases h
  | cons arm arms iharms =>
    rw [chooseArm, bind_apply] at h
    -- an arm is chosen, or the next ones are tried; all that fails on the way chooses none
    generalize eval arm.1 scope ev s = r at h
    rcases r with ⟨v | _ | _, s₁⟩
    · dsimp only at h
      rw [bind_apply] at h
      generalize Exec.toBool v ev s₁ = r at h
      rcases r with ⟨b | _ | _, s₂⟩
      · cases b with
        | true =>
          cases h
          rw [List.length_cons]
          omega
        | false =>
          have hrest := iharms h
          rw [List.length_cons]
          omega
      · cases h
      · cases h
    · cases h
    · cases h

variable (hc : c.state = .running)
include hc

/-- The body of an arm, in the scope that was made for it. -/
theorem Follows.arm {depth : Nat} {arms : List (Node × Node)} {otherwise : Option Node} {scope : Nat}
    {arm : Option Nat} {e : Node} (he : kind e) (harm : armBody arms otherwise arm = some e)
    {outs : List State} (houts : ∀ t ∈ outs, t.Calm reads i c) {s : State} (hs : s.Calm reads i c) :
    Tracks reads i c (leg (n + 1) depth (.branch arms otherwise) scope) outs
      ((do
        let inner ← make fun h => h.newScope scope
        runArm arms otherwise arm inner : Exec Value) (evaluator n) s)
      ((do
        let inner ← Straight.lift (evaluator n) (make fun h => h.newScope scope)
        run (depth + 1) e inner : Straight Value) s outs) := by
  refine .lift hs (quiet_newScope hc n scope) fun inner t _ ht => ?_
  have hrun : ∀ t : State, runArm arms otherwise arm inner (evaluator n) t =
      id (passed (some (.inBranch arm inner)) (evaluateNode n e inner t)) := by
    intro t
    rw [runArm_eq, harm]
    rfl
  rw [hrun, ← Straight.andThen_give (run (depth + 1) e inner)]
  refine ih.part passes_id (fun fs t => ?_) he houts ht fun outs r _ hr ht => .give hr ht
  exact hrun (t.withResume fs)

theorem Follows.branch {depth : Nat} {arms : List (Node × Node)} {otherwise : Option Node} (scope : Nat)
    (hconds : ∀ arm ∈ arms, arm.1.YieldFree reads) (hbodies : ∀ arm ∈ arms, kind arm.2)
    (hotherwise : ∀ e ∈ otherwise, kind e) {outs : List State}
    (houts : ∀ t ∈ outs, t.Calm reads i c) {s : State} (hs : s.Calm reads i c) :
    Tracks reads i c (leg (n + 1) depth (.branch arms otherwise) scope) outs
      (dispatch (.branch arms otherwise) scope (evaluator n) s)
      (Straight.dispatch (evaluator n) (run (depth + 1)) depth (.branch arms otherwise) scope
        s outs) := by
  show Tracks reads i c _ outs (evalBranch arms otherwise scope (evaluator n) s) _
  unfold evalBranch
  rw [nextFrame_bind hs.resume]
  show Tracks reads i c _ outs _ (Straight.branch (evaluator n) _ arms otherwise scope s outs)
  unfold Straight.branch
  refine .lift hs (quiet_chooseArm hc n hconds scope 0) fun arm t harm ht => ?_
  cases arm with
  | none =>
    cases otherwise with
    | none => exact .give rfl ht
    | some e => exact ih.arm hc (hotherwise e rfl) rfl houts ht
  | some m =>
    have hlt : m < arms.length := by
      have hchosen := (chooseArm_lt harm).2
      omega
    have hbody : armBody arms otherwise (some m) = some arms[m].2 := by
      show arms[m]?.map _ = _
      rw [List.getElem?_eq_getElem hlt]
      rfl
    rw [hbody]
    exact ih.arm hc (hbodies _ (List.getElem_mem hlt)) hbody houts ht

/-! ## Exceptions -/

/-- A handler, in the scope that was made for it. -/
theorem Follows.handler {depth : Nat} {body : Node} {x : String} {catcher : Node} {scope : Nat}
    (h : kind catcher) (v : Value) {outs : List State} (houts : ∀ t ∈ outs, t.Calm reads i c)
    {s : State} (hs : s.Calm reads i c) :
    Tracks reads i c (leg (n + 1) depth (.tryCatch body x catcher) scope) outs
      (handleException x catcher scope v (evaluator n) s)
      (Straight.handler (evaluator n) (run (depth + 1)) x catcher scope v s outs) := by
  unfold handleException Straight.handler
  refine .lift hs (quiet_newScopeWith hc n scope x v) fun inner t _ ht => ?_
  have hrun : ∀ t : State, runHandler catcher inner (evaluator n) t =
      id (passed (some (.inTry (some inner))) (evaluateNode n catcher inner t)) := fun _ => rfl
  rw [hrun, ← Straight.andThen_give (run (depth + 1) catcher inner)]
  exact ih.part passes_id (fun _ _ => rfl) h houts ht fun outs r _ hr ht => .give hr ht

/-- What a `try` does with a signal of its body. -/
def catching (x : String) (catcher : Node) (scope : Nat) : Signal → Option (Exec Value)
  | .throwValue v => some (handleException x catcher scope v)
  | .error e =>
    if e.isCatchable then some do handleException x catcher scope (← exceptionFrom e) else none
  | _ => none

omit ih hc in
theorem passes_taken (x : String) (catcher : Node) (scope : Nat) (ev : Evaluator) :
    Passes (taken (catching x catcher scope) ev) where
  yieldValue _ _ _ := rfl
  error e t h := by
    show ((if e.isCatchable = true then _ else none : Option (Exec Value)).getD _) ev t = _
    rw [h]
    rfl
  halted _ _ := rfl

theorem Follows.tryCatch {depth : Nat} {body : Node} {x : String} {catcher : Node} (scope : Nat)
    (hbody : kind body) (hcatcher : kind catcher) {outs : List State}
    (houts : ∀ t ∈ outs, t.Calm reads i c) {s : State} (hs : s.Calm reads i c) :
    Tracks reads i c (leg (n + 1) depth (.tryCatch body x catcher) scope) outs
      (dispatch (.tryCatch body x catcher) scope (evaluator n) s)
      (Straight.dispatch (evaluator n) (run (depth + 1)) depth (.tryCatch body x catcher)
        scope s outs) := by
  have hrun : ∀ t : State, runTry body x catcher scope (evaluator n) t =
      taken (catching x catcher scope) (evaluator n)
        (passed (some (.inTry none)) (evaluateNode n body scope t)) := by
    intro t
    have htake : runTry body x catcher scope =
        handle (leavingFrame (.inTry none) (eval body scope)) (catching x catcher scope) := by
      unfold runTry
      refine congrArg (handle _) (funext fun g => ?_)
      cases g <;> rfl
    rw [htake, handle_eq_taken]
    rfl
  show Tracks reads i c _ outs (evalTry body x catcher scope (evaluator n) s) _
  unfold evalTry
  rw [nextFrame_bind hs.resume]
  show Tracks reads i c _ outs (runTry body x catcher scope (evaluator n) s)
    (Straight.tryCatch (evaluator n) _ body x catcher scope s outs)
  unfold Straight.tryCatch Straight.handle
  rw [hrun]
  refine ih.part (passes_taken x catcher scope _) (fun fs t => ?_) hbody houts hs ?_
  · exact hrun (t.withResume fs)
  intro outs r houts hr ht
  rcases r with ⟨v | g | k, t⟩
  · exact .give rfl ht
  · cases g with
    | throwValue v => exact ih.handler hc hcatcher v houts ht
    | error e =>
      show Tracks reads i c _ outs
        (((if e.isCatchable = true then _ else none : Option (Exec Value)).getD _) (evaluator n) t)
        (((if e.isCatchable = true then _ else none : Option (Straight Value)).getD _) t outs)
      by_cases he : e.isCatchable = true
      · rw [if_pos he, if_pos he]
        -- the failure becomes an exception first, which may fail itself
        exact .lift ht (quiet_exceptionFrom hc n e) fun v t _ ht => ih.handler hc hcatcher v houts ht
      · rw [if_neg he, if_neg he]
        exact .give rfl ht
    | yieldValue v fs => cases hr
    | breakLoop _ | continueLoop | returnValue _ => exact .give rfl ht
  · exact .give rfl ht

/-! ## Yields -/

omit ih in
/-- A `yield` hands its value out, and gives null when it is resumed. -/
theorem tracks_yieldWith (n depth : Nat) {value : Option Node} (scope : Nat)
    (h : ∀ e ∈ value, e.YieldFree reads) {outs : List State}
    (houts : ∀ t ∈ outs, t.Calm reads i c) {s : State} (hs : s.Calm reads i c) :
    Tracks reads i c (leg (n + 1) depth (.yieldWith value) scope) outs
      (dispatch (.yieldWith value) scope (evaluator n) s)
      (Straight.dispatch (evaluator n) (run (depth + 1)) depth (.yieldWith value) scope s
        outs) := by
  show Tracks reads i c _ outs (evalYield value scope (evaluator n) s) _
  unfold evalYield
  rw [nextFrame_bind hs.resume]
  refine .lift hs (quiet_evalOptional hc n h scope) fun v t _ ht => ?_
  cases outs with
  | nil =>
    refine ⟨rfl, ⟨fun y hy => ?_, fun _ h => by cases h⟩⟩
    cases List.mem_singleton.mp hy
    exact ht
  | cons next outs =>
    have hnext : next.Calm reads i c := houts next List.mem_cons_self
    -- the next leg enters the nodes on the way again and takes the last frame
    have hagain : rested (leg (n + 1) depth (.yieldWith value) scope [.atYield] next) =
        rested ((do
          reenter (depth + 1)
          pure .null : Exec Value) (evaluator n) (next.withResume [])) :=
      leg_again depth (y := pure .null) (fun _ => rfl) next
    rw [hnext.withResume_nil] at hagain
    exact .emit ht (.of_rested hagain (.lift hnext (quiet_reenter hc _ _) fun _ _ _ ht => .give rfl ht))

/-! ## Loops -/

/-- Go on with what is left of a loop, if anything is. -/
def restOf {σ : Type} (real : Nat → σ → Exec Value) (m : Nat) : Option σ → Exec Value
  | some a => real m a
  | none => pure .null

/-- Go on with a round that has begun, if one has. -/
def goRound {σ : Type} (real : Nat → σ → Exec Value) (m : Nat) (frame : Nat × Option σ → ResumeFrame)
    (body : Node) : Option (Nat × Option σ) → Exec Value
  | some p => runRound (frame p) body p.1 >>= afterRound (restOf real m p.2)
  | none => pure .null

omit ih hc in
theorem goRound_some {σ : Type} (real : Nat → σ → Exec Value) (m : Nat)
    (frame : Nat × Option σ → ResumeFrame) (body : Node) (p : Nat × Option σ) (ev : Evaluator)
    (s : State) :
    goRound real m frame body (some p) ev s =
      endRound (afterRound (restOf real m p.2)) ev (passed (some (frame p)) (ev.eval body p.1 s)) :=
  runRound_bind_eq _ _ _ _ _ _

/-- The rounds of a loop with a bound begin in one way, leave one frame each, and are found again by
it. -/
structure Looping {σ : Type} (reads : ExpressionParser → Prop) (i : Nat) (c : Coroutine) (n : Nat)
    (e : Node) (scope : Nat) (body : Node) (begin : σ → Exec (Option (Nat × Option σ)))
    (frame : σ → Nat × Option σ → ResumeFrame) (real : Nat → σ → Exec Value) : Prop where
  quiet : ∀ a, Quiet reads i c (evaluator n) (begin a)
  zero : ∀ a, real 0 a = halt .outOfFuel
  succ : ∀ m a, real (m + 1) a = begin a >>= goRound real m (frame a) body
  resume : ∀ {m a p s t}, n = m + 1 → begin a (evaluator n) s = (.value (some p), t) →
    ∀ fs (u : State), dispatch e scope (evaluator n) (u.withResume (frame a p :: fs)) =
      goRound real m (frame a) body (some p) (evaluator n) (u.withResume fs)

omit ih hc in
/-- After the body of a round, the loop ends or goes on with its rest. -/
theorem tracks_afterBody {σ : Type} {again : Leg} {outs : List State} {ev : Evaluator}
    {real : Nat → σ → Exec Value} {m : Nat} {next : Option σ}
    {rest : σ → Straight Value} {later : Outcome (Value ⊕ σ) × State → List State → Course Value}
    (hrest : ∀ a t, t.Calm reads i c → Tracks reads i c again outs (real m a ev t) (rest a t outs))
    {r : Outcome Value × State} (hr : r.1.isYield = false) (ht : r.2.Calm reads i c) :
    Tracks reads i c again outs (endRound (afterRound (restOf real m next)) ev r)
      ((Straight.onValue (Straight.afterBody next) (roundEnd r.1) r.2 outs).goOn outs
        (fun r outs => Straight.onRound rest r.1 r.2 outs) later) := by
  have hnext : Tracks reads i c again outs (restOf real m next ev r.2)
      ((Straight.leftOver next r.2 outs).goOn outs
        (fun r outs => Straight.onRound rest r.1 r.2 outs) later) := by
    cases next with
    | none => exact .give rfl ht
    | some a => exact hrest a r.2 ht
  rcases r with ⟨v | g | k, t⟩
  · exact hnext
  · cases g with
    | continueLoop => exact hnext
    | yieldValue v fs => cases hr
    | breakLoop _ | returnValue _ | throwValue _ | error _ => exact .give rfl ht
  · exact .give rfl ht

omit ih hc in
/-- A round that ends the loop or goes on yields nothing after its body. -/
theorem yields_afterBody {σ : Type} (next : Option σ) (r : Outcome Value × State) (outs : List State) :
    (Straight.onValue (Straight.afterBody next) (roundEnd r.1) r.2 outs).yields = [] := by
  rcases r with ⟨v | (_ | _ | _ | _ | _ | _) | k, t⟩ <;> cases next <;> rfl

section
variable {σ : Type} {depth : Nat} {e : Node} {scope : Nat} {body : Node}
variable {begin : σ → Exec (Option (Nat × Option σ))} {frame : σ → Nat × Option σ → ResumeFrame}
variable {real : Nat → σ → Exec Value} (hloop : Looping reads i c n e scope body begin frame real)
variable (hbody : kind body)
include hloop hbody

omit hc in
/-- One round, if what is left of the loop is known to follow: with the bound that is left at present,
or with the bound that is left when the run has been resumed. -/
theorem Follows.round {m : Nat} (hm : m + 1 ≤ n) (a : σ) {outs : List State} {s : State}
    (hs : s.Calm reads i c) (houts : ∀ t ∈ outs, t.Calm reads i c)
    {round : σ → Straight (Value ⊕ σ)}
    (hround : round = Straight.round (evaluator n) (run (depth + 1)) begin body)
    (hnow : ∀ b t, t.Calm reads i c → Tracks reads i c (leg (n + 1) depth e scope) outs
      (real m b (evaluator n) t) (Straight.loop n round m b t outs))
    (hlater : ∀ k b t, 0 < k → k ≤ outs.length → t.Calm reads i c →
      Tracks reads i c (leg (n + 1) depth e scope) (outs.drop k) (real (n - 1) b (evaluator n) t)
        (Straight.loop n round (n - 1) b t (outs.drop k))) :
    Tracks reads i c (leg (n + 1) depth e scope) outs (real (m + 1) a (evaluator n) s)
      (Straight.loop n round (m + 1) a s outs) := by
  have happly : round a s outs =
      Straight.onValue (Straight.inRound (run (depth + 1)) body) (begin a (evaluator n) s).1
        (begin a (evaluator n) s).2 outs := by
    rw [hround]
    rfl
  have hquiet := hloop.quiet a s hs
  rcases h : begin a (evaluator n) s with ⟨o, t⟩
  rw [h] at happly hquiet
  obtain ⟨hyield, ht⟩ := hquiet
  rw [hloop.succ, bind_apply, h]
  -- the loop ends here if the beginning of the round fails, or finds that nothing is left to do
  cases o with
  | signal g =>
    rw [Straight.loop_succ _ _ _ _ _ _ (by rw [happly]; exact fun _ => Nat.zero_le _), happly]
    exact .give (by cases g <;> first | rfl | cases hyield) ht
  | halted k =>
    rw [Straight.loop_succ _ _ _ _ _ _ (by rw [happly]; exact fun _ => Nat.zero_le _), happly]
    exact .give rfl ht
  | value p =>
    cases p with
    | none =>
      rw [Straight.loop_succ _ _ _ _ _ _ (by rw [happly]; exact fun _ => Nat.zero_le _), happly]
      exact .give rfl ht
    | some p =>
      -- the body follows its course by induction, and after it comes the rest of the loop
      have hinner := ih (depth + 1) body p.1 outs t hbody ht houts
      have hlength := length_driven (leg n (depth + 1) body p.1) outs (evaluateNode n body p.1 t)
      rw [hinner.eq] at hlength
      have hcourse : round a s outs = (run (depth + 1) body p.1 t outs).goOn outs
          (fun r => Straight.onValue (Straight.afterBody p.2) (roundEnd r.1) r.2)
          fun r => Straight.onValue (Straight.afterBody p.2) (roundEnd r.1) r.2 := happly
      rw [Straight.loop_succ _ _ _ _ _ _ (by
        rw [hcourse]
        exact Course.length_goOn (yields_afterBody p.2) hlength), hcourse, Course.goOn_goOn]
      show Tracks reads i c _ outs (goRound real m (frame a) body (some p) (evaluator n) t) _
      rw [goRound_some]
      refine .passed (passes_endRound _ _) (passes_endRound (afterRound (restOf real (n - 1) p.2)) _)
        (leg_frame (passes_endRound _ _) fun fs u => ?_) hinner
        (fun r hr ht => tracks_afterBody hnow hr ht)
        fun k r hk hle hr ht => tracks_afterBody (fun b t ht => hlater k b t hk hle ht) hr ht
      have hn : n = n - 1 + 1 := by omega
      refine (hloop.resume hn h fs u).trans ?_
      rw [goRound_some]
      rfl

omit hc in
/-- A loop.  The rounds that are left get fewer, unless the run has been resumed: then there are fewer
states left in which it can be resumed. -/
theorem Follows.loop (m : Nat) (a : σ) (outs : List State) {s : State} (hm : m ≤ n)
    (hs : s.Calm reads i c) (houts : ∀ t ∈ outs, t.Calm reads i c) :
    Tracks reads i c (leg (n + 1) depth e scope) outs (real m a (evaluator n) s)
      (Straight.loop n (Straight.round (evaluator n) (run (depth + 1)) begin body) m a s
        outs) := by
  induction hlength : outs.length using Nat.strongRecOn generalizing m a outs s with
  | ind length ihouts =>
    -- with the same states to be resumed in, the rounds get fewer
    induction m generalizing a s with
    | zero =>
      rw [hloop.zero, Straight.loop]
      exact .give rfl hs
    | succ m ihm =>
      refine ih.round hloop hbody hm a hs houts rfl (fun b t ht => ?_) fun k b t hk hle ht => ?_
      · exact ihm b (Nat.le_of_succ_le hm) ht
      · have hfewer : (outs.drop k).length < length := by
          rw [List.length_drop]
          omega
        refine ihouts _ hfewer (n - 1) b (outs.drop k) (Nat.sub_le n 1) ht (fun u hu => ?_) rfl
        exact houts u (List.mem_of_mem_drop hu)

end

omit ih in
theorem looping_while {cond : Node} (hcond : cond.YieldFree reads) (body : Node) (scope : Nat) :
    Looping reads i c n (.whileLoop cond body) scope body (beginWhile cond scope)
      (fun _ p => .inWhile p.1) fun m _ => whileRounds cond body scope m none where
  quiet := quiet_beginWhile hc n hcond scope
  zero _ := rfl
  succ m u := by
    rw [whileRounds_begin, beginWhile]
    simp only [bind_assoc]
    refine congrArg (eval cond scope >>= ·) (funext fun v => ?_)
    refine congrArg (Exec.toBool v >>= ·) (funext fun b => ?_)
    cases b with
    | false => rfl
    | true =>
      rw [if_pos rfl, if_pos rfl, bind_assoc]
      refine congrArg (make _ >>= ·) (funext fun inner => ?_)
      rw [pure_bind, whileRounds_resumed]
      rfl
  resume := by
    rintro m u ⟨inner, next⟩ s t rfl h fs u'
    -- a round that has begun is followed by others
    obtain ⟨v, s₁, _, h⟩ := of_bind_eq_value h
    obtain ⟨b, s₂, _, h⟩ := of_bind_eq_value h
    cases b with
    | false => cases h
    | true =>
    obtain ⟨made, _, _, h⟩ := of_bind_eq_value h
    cases h
    show whileRounds cond body scope (m + 1) (some inner) (evaluator (m + 1)) (u'.withResume fs) = _
    rw [whileRounds_resumed]
    rfl

omit ih hc in
theorem rangeRest_eq (x : String) (ty : TypeKind) (direction : RangeDirection) (stop : Int64)
    (body : Node) (scope m : Nat) (current : Int64) :
    rangeRest x ty direction stop body scope m current =
      restOf (fun m current => rangeRounds x ty direction stop body scope m current none) m
        (Range.next? direction current) := by
  unfold rangeRest
  cases Range.next? direction current <;> rfl

omit ih in
theorem looping_range (x : String) (ty : TypeKind) (a b : Node) (direction : RangeDirection)
    (stop : Int64) (body : Node) (scope : Nat) :
    Looping reads i c n (.forRange x ty a b direction body) scope body
      (beginRange x ty direction stop scope) (fun current p => .inRange p.1 current stop)
      fun m current => rangeRounds x ty direction stop body scope m current none where
  quiet := quiet_beginRange hc n x ty direction stop scope
  zero _ := rfl
  succ m current := by
    rw [rangeRounds_begin, beginRange]
    by_cases h : Range.includes direction current stop = true
    · rw [if_pos h, if_pos h]
      simp only [bind_assoc]
      refine congrArg (make _ >>= ·) (funext fun inner => ?_)
      refine congrArg (coerce (.long current) ty >>= ·) (funext fun v => ?_)
      refine congrArg (modifyHeap _ >>= ·) (funext fun _ => ?_)
      rw [pure_bind, rangeRounds_resumed, if_pos h, goRound, rangeRest_eq]
    · rw [if_neg h, if_neg h]
      rfl
  resume := by
    rintro m current ⟨inner, next⟩ s t rfl h fs u'
    show rangeRounds x ty direction stop body scope (m + 1) current (some inner) (evaluator (m + 1))
      (u'.withResume fs) = _
    rw [rangeRounds_resumed]
    unfold beginRange at h
    by_cases hincludes : Range.includes direction current stop = true
    · rw [if_pos hincludes] at h
      obtain ⟨_, _, _, h⟩ := of_bind_eq_value h
      obtain ⟨_, _, _, h⟩ := of_bind_eq_value h
      obtain ⟨_, _, _, h⟩ := of_bind_eq_value h
      cases h
      rw [if_pos hincludes, rangeRest_eq]
      rfl
    · rw [if_neg hincludes] at h
      cases h

omit ih in
theorem looping_each (x : String) (iterable body : Node) (scope : Nat) :
    Looping reads i c n (.forEach x iterable body) scope body (beginEach x scope)
      (fun _ p => .inEach p.1 (p.2.getD (.items [])))
      fun m source => eachRounds x body scope m source none where
  quiet := quiet_beginEach hc n x scope
  zero _ := rfl
  succ m source := by
    rw [eachRounds_begin, beginEach, bind_assoc]
    refine congrArg (nextItem source >>= ·) (funext fun item => ?_)
    cases item with
    | none => rfl
    | some item =>
      show (make _ >>= fun inner => _) = (make _ >>= fun inner => pure _) >>= _
      rw [bind_assoc]
      refine congrArg (make _ >>= ·) (funext fun inner => ?_)
      rw [pure_bind, eachRounds_resumed]
      rfl
  resume := by
    rintro m source ⟨inner, next⟩ s t rfl h fs u'
    obtain ⟨item, s₁, _, h⟩ := of_bind_eq_value h
    cases item with
    | none => cases h
    | some item =>
    obtain ⟨_, s₂, _, h⟩ := of_bind_eq_value h
    cases h
    show eachRounds x body scope (m + 1) item.2 (some inner) (evaluator (m + 1))
      (u'.withResume fs) = _
    rw [eachRounds_resumed]
    rfl

theorem Follows.whileLoop {depth : Nat} {cond body : Node} (scope : Nat)
    (hcond : cond.YieldFree reads) (hbody : kind body) {outs : List State}
    (houts : ∀ t ∈ outs, t.Calm reads i c) {s : State} (hs : s.Calm reads i c) :
    Tracks reads i c (leg (n + 1) depth (.whileLoop cond body) scope) outs
      (dispatch (.whileLoop cond body) scope (evaluator n) s)
      (Straight.dispatch (evaluator n) (run (depth + 1)) depth (.whileLoop cond body) scope s
        outs) := by
  show Tracks reads i c _ outs (evalWhile cond body scope (evaluator n) s) _
  unfold evalWhile
  rw [nextFrame_bind hs.resume]
  exact ih.loop (looping_while hc hcond body scope) hbody n () outs (Nat.le_refl n) hs houts

theorem Follows.forRange {depth : Nat} {x : String} {ty : TypeKind} {a b : Node}
    {direction : RangeDirection} {body : Node} (scope : Nat)
    (ha : a.YieldFree reads) (hb : b.YieldFree reads) (hbody : kind body) {outs : List State}
    (houts : ∀ t ∈ outs, t.Calm reads i c) {s : State} (hs : s.Calm reads i c) :
    Tracks reads i c (leg (n + 1) depth (.forRange x ty a b direction body) scope) outs
      (dispatch (.forRange x ty a b direction body) scope (evaluator n) s)
      (Straight.dispatch (evaluator n) (run (depth + 1)) depth
        (.forRange x ty a b direction body) scope s outs) := by
  show Tracks reads i c _ outs (evalRange x ty a b direction body scope (evaluator n) s) _
  unfold evalRange
  rw [nextFrame_bind hs.resume]
  refine .lift hs (quiet_eval hc n ha scope) fun first t _ ht => ?_
  refine .lift ht (quiet_eval hc n hb scope) fun last t _ ht => ?_
  refine .lift ht (quiet_rangeBound hc n first) fun first t _ ht => ?_
  refine .lift ht (quiet_rangeBound hc n last) fun last t _ ht => ?_
  exact ih.loop (looping_range hc x ty a b direction last body scope) hbody n first outs (Nat.le_refl n)
    ht houts

theorem Follows.forEach {depth : Nat} {x : String} {iterable body : Node} (scope : Nat)
    (hiterable : iterable.YieldFree reads) (hbody : kind body) {outs : List State}
    (houts : ∀ t ∈ outs, t.Calm reads i c) {s : State} (hs : s.Calm reads i c) :
    Tracks reads i c (leg (n + 1) depth (.forEach x iterable body) scope) outs
      (dispatch (.forEach x iterable body) scope (evaluator n) s)
      (Straight.dispatch (evaluator n) (run (depth + 1)) depth (.forEach x iterable body)
        scope s outs) := by
  show Tracks reads i c _ outs (evalEach x iterable body scope (evaluator n) s) _
  unfold evalEach
  rw [nextFrame_bind hs.resume]
  refine .lift hs (quiet_eval hc n hiterable scope) fun v t _ ht => ?_
  refine .lift ht (quiet_eachSource hc n v) fun source t _ ht => ?_
  exact ih.loop (looping_each hc x iterable body scope) hbody n source outs (Nat.le_refl n) ht houts

/-! ## All nodes -/

/-- The legs of a statement, or of a `yield`, whose parts follow. -/
theorem Follows.statement {depth : Nat} {e : Node} (scope : Nat) (he : e.takesFrame = true)
    (hbodies : ∀ p ∈ e.bodies, kind p) (hconditions : ∀ p ∈ e.conditions, p.YieldFree reads)
    {outs : List State} (houts : ∀ t ∈ outs, t.Calm reads i c) {s : State} (hs : s.Calm reads i c) :
    Tracks reads i c (leg (n + 1) depth e scope) outs (dispatch e scope (evaluator n) s)
      (Straight.dispatch (evaluator n) (run (depth + 1)) depth e scope s outs) := by
  cases e with
  | block es => exact ih.block scope hbodies houts hs
  | branch arms otherwise =>
    refine ih.branch hc scope (fun arm harm => ?_) (fun arm harm => ?_) (fun e he => ?_) houts hs
    · exact hconditions arm.1 (List.mem_map_of_mem harm)
    · exact hbodies arm.2 (List.mem_append_left _ (List.mem_map_of_mem harm))
    · exact hbodies e (List.mem_append_right _ (Option.mem_toList.mpr he))
  | whileLoop cond body =>
    exact ih.whileLoop hc scope (hconditions cond List.mem_cons_self) (hbodies body List.mem_cons_self)
      houts hs
  | forRange x ty a b direction body =>
    exact ih.forRange hc scope (hconditions a List.mem_cons_self)
      (hconditions b (List.mem_cons_of_mem _ List.mem_cons_self)) (hbodies body List.mem_cons_self)
      houts hs
  | forEach x iterable body =>
    exact ih.forEach hc scope (hconditions iterable List.mem_cons_self)
      (hbodies body List.mem_cons_self) houts hs
  | tryCatch body x catcher =>
    exact ih.tryCatch hc scope (hbodies body List.mem_cons_self)
      (hbodies catcher (List.mem_cons_of_mem _ List.mem_cons_self)) houts hs
  | yieldWith value =>
    exact tracks_yieldWith hc n depth scope (fun e he => hconditions e (Option.mem_toList.mpr he)) houts
      hs
  | _ => cases he

end

/-- All other nodes are evaluated as they are. -/
theorem tracks_plain (hc : c.state = .running) (n depth : Nat) {e : Node} (scope : Nat)
    (he : e.YieldFree reads) {outs : List State} {s : State} (hs : s.Calm reads i c) :
    Tracks reads i c (leg (n + 1) depth e scope) outs (dispatch e scope (evaluator n) s)
      (Straight.lift (evaluator n) (dispatch e scope) s outs) := by
  obtain ⟨hyield, hcalm⟩ := quiet_dispatch hc n he scope s hs
  exact .give hyield hcalm

/-- **Leg by leg is straight through.**  With any bound, the legs of a node whose yields stand where
statements stand make up the course of the node run straight through. -/
theorem follows (hc : c.state = .running) (n : Nat) :
    Follows reads i c (Node.Staged reads) (Straight.node n) n := by
  induction n with
  | zero => exact fun _ _ _ _ _ _ hs _ => .give rfl hs
  | succ n ih =>
    intro depth e scope outs s he hs houts
    refine .lift hs (quiet_enterNode hc _) fun _ t _ ht => ?_
    cases hframe : e.takesFrame with
    | true => exact ih.statement hc scope hframe he.bodies he.conditions houts ht
    | false =>
      rw [Straight.dispatch_plain hframe]
      exact tracks_plain hc n depth scope (he.yieldFree_of_plain hframe) ht

end TreeScript
