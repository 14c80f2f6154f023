import TreeScript.Proofs.Simulation.Control
import TreeScript.Proofs.Simulation.Expressions

/-
# Nodes, side by side

Every node but a `try` is evaluated alike on the two sides of a lawful simulation; a `try` is when the
handler begins alike.  From this, evaluators that are tied to themselves agree on all nodes
(`ready_evaluateBy`), whatever is left of their accounts of a node to be compared.
-/

namespace TreeScript
namespace Simulation

open Exec

variable {S : Simulation} {ev ev' : Evaluator} {w : S.World}
variable (L : S.Lawful)
include L

section
variable (R : S.Ready ev ev')
include R

theorem agrees_evalAll {c c' : Nat} (hc : S.scope w c c') {es : List Node}
    (hes : ∀ e ∈ es, S.fits w e) : S.Agrees ev ev' w (evalAll c es) (evalAll c' es) := by
  induction es generalizing w with
  | nil => exact .pure L.toOrdered []
  | cons e es ih =>
    refine .bind L.toOrdered (R.eval (hes e List.mem_cons_self) hc) fun w₁ v h => ?_
    refine .bind L.toOrdered (ih (L.scope_mono h hc) fun e he => ?_) fun _ vs _ =>
      .pure L.toOrdered _
    exact L.fits_mono (L.unwound_of_le h) (hes e (List.mem_cons_of_mem _ he))

theorem agrees_evalEntries {c c' : Nat} (hc : S.scope w c c') (m : OrderedMap)
    {es : List (Node × Node)} (hes : ∀ e ∈ es, S.fits w e.1 ∧ S.fits w e.2) :
    S.Agrees ev ev' w (evalEntries c m es) (evalEntries c' m es) := by
  induction es generalizing w m with
  | nil => exact .pure L.toOrdered m
  | cons e es ih =>
    obtain ⟨hkey, hvalue⟩ := hes e List.mem_cons_self
    refine .bind L.toOrdered (R.eval hkey hc) fun w₁ k h₁ => ?_
    refine .bind L.toOrdered
      (R.eval (L.fits_mono (L.unwound_of_le h₁) hvalue) (L.scope_mono h₁ hc)) fun w₂ v h₂ => ?_
    have h := L.le_trans h₁ h₂
    refine ih (L.scope_mono h hc) (m.insert k v) fun e he => ?_
    obtain ⟨hkey, hvalue⟩ := hes e (List.mem_cons_of_mem _ he)
    exact ⟨L.fits_mono (L.unwound_of_le h) hkey, L.fits_mono (L.unwound_of_le h) hvalue⟩

omit R in
theorem agrees_delete {c c' : Nat} (hc : S.scope w c c') (x : String) :
    S.Agrees ev ev' w (do modifyHeap fun h => (h.unbind c x).2; return .null : Exec Value)
      (do modifyHeap fun h => (h.unbind c' x).2; return .null) := by
  intro s s' hs
  exact .value (L.le_refl w) (L.unbind x hs hc) rfl

omit R in
theorem agrees_functionDef (d : FunctionDecl Node) :
    S.Agrees ev ev' w
      (do modifySession fun s => s.addFunction (.routine (.ofDecl d)); return .null : Exec Value)
      (do modifySession fun s => s.addFunction (.routine (.ofDecl d)); return .null) := by
  intro s s' hs
  refine .value (L.le_refl w) (L.addFunction hs ?_) rfl
  unfold Routine.ofDecl
  cases d.isCoroutine <;> rfl

omit R in
/-- The functions that a class is called by are added one after the other. -/
theorem rel_addConstructors {s s' : State} (hs : S.rel w s s') {fs : List Function}
    (hfs : ∀ f ∈ fs, f.isNative = false) :
    S.rel w (s.withSession (fs.foldl Session.addFunction s.session))
      (s'.withSession (fs.foldl Session.addFunction s'.session)) := by
  induction fs generalizing s s' with
  | nil => exact hs
  | cons f fs ih =>
    exact ih (L.addFunction hs (hfs f List.mem_cons_self)) fun g hg =>
      hfs g (List.mem_cons_of_mem f hg)

omit L R in
theorem isNative_of_mem_constructorsOf {cls : ClassDef} {f : Function}
    (h : f ∈ Session.constructorsOf cls) : f.isNative = false := by
  unfold Session.constructorsOf at h
  split at h
  · cases List.mem_singleton.mp h
    rfl
  · obtain ⟨_, _, rfl⟩ := List.mem_map.mp h
    rfl

omit L R in
theorem defineClass_eq (s : Session) (d : ClassDecl Node) :
    s.defineClass d =
      match ClassDef.build d s.classes.find? with
      | .error e => .error e
      | .ok cls =>
        if s.classes.contains cls.name then
          .error (.of (.custom ("Class " ++ cls.name ++ " already defined")))
        else
          .ok ((Session.constructorsOf cls).foldl Session.addFunction
            { s with classes := s.classes.insert cls.name cls }) := by
  unfold Session.defineClass
  cases ClassDef.build d s.classes.find? <;> rfl

omit R in
theorem agrees_classDef (d : ClassDecl Node) :
    S.Agrees ev ev' w
      (do
        let s ← ofExcept (← session fun s => s.defineClass d)
        modifySession fun _ => s
        return .null : Exec Value)
      (do
        let s ← ofExcept (← session fun s => s.defineClass d)
        modifySession fun _ => s
        return .null) := by
  intro s s' hs
  have hclasses := L.classes hs
  have herror : ∀ e, S.Ends w (fun _ (a b : Value) => a = b) (.signal (.error e), s)
      (.signal (.error e), s') := fun e => .signal (.error e (L.unwound_of_le (L.le_refl w))) hs
  simp only [bind_apply, session]
  rw [defineClass_eq, defineClass_eq, ← hclasses]
  cases ClassDef.build d s.session.classes.find? with
  | error e => exact herror e
  | ok cls =>
    dsimp only
    cases s.session.classes.contains cls.name with
    | true => exact herror _
    | false =>
      have hadd := rel_addConstructors L (L.withClasses (s.session.classes.insert cls.name cls) hs)
        (fun f hf => isNative_of_mem_constructorsOf hf : ∀ f ∈ Session.constructorsOf cls, _)
      exact .value (L.le_refl w) hadd rfl

omit L R in
/-- The first part of a node is the first one of its parts. -/
theorem parts_of_first {e p : Node} (h : e.first? = some p) : e.parts = p :: e.parts.tail := by
  cases e with
  | listLiteral es =>
    cases es with
    | nil => cases h
    | cons e es => cases h; rfl
  | mapLiteral es =>
    cases es with
    | nil => cases h
    | cons e es => cases h; rfl
  | returnWith value =>
    cases value with
    | none => cases h
    | some e => cases e <;> cases h <;> rfl
  | _ => cases h <;> rfl

/-- The right operand may be left out on both sides, or on none. -/
theorem agrees_afterLeft {c c' : Nat} (op : BinaryOp) {right : Node} (v : Value)
    (hright : ∀ w₁, S.le w w₁ → S.Agrees ev ev' w₁ (eval right c) (eval right c')) :
    S.Agrees ev ev' w (afterLeft op right c v) (afterLeft op right c' v) := by
  unfold afterLeft
  cases op.isShortCircuit with
  | true =>
    refine .bind L.toOrdered (agrees_toBool L R v) fun w₁ a h => ?_
    split
    · exact .pure L.toOrdered _
    · refine .bind L.toOrdered (hright w₁ h) fun w₂ u _ => ?_
      exact .bind L.toOrdered (agrees_toBool L R u) fun _ b _ => .pure L.toOrdered _
  | false =>
    exact .bind L.toOrdered (hright w (L.le_refl w)) fun _ u _ => agrees_applyBinary L R op v u

/-- What an expression or a jump does with the value of its first part: one case for each kind of node that has
a first part. -/
theorem agrees_afterFirst {c c' : Nat} (hc : S.scope w c c') {e p : Node} (hfirst : e.first? = some p)
    (hrest : ∀ q ∈ e.parts.tail, S.fits w q) (v : Value) :
    S.Agrees ev ev' w (afterFirst e c v) (afterFirst e c' v) := by
  -- a part that is evaluated later still fits
  have hlater : ∀ q ∈ e.parts.tail, ∀ w₁, S.le w w₁ → S.Agrees ev ev' w₁ (eval q c) (eval q c') :=
    fun q hq w₁ h => R.eval (L.fits_mono (L.unwound_of_le h) (hrest q hq)) (L.scope_mono h hc)
  cases e with
  | listLiteral es =>
    cases es with
    | nil => cases hfirst
    | cons e es =>
      exact .bind L.toOrdered (agrees_evalAll L R hc hrest) fun _ vs _ => agrees_newList L (v :: vs)
  | mapLiteral es =>
    rcases es with _ | ⟨⟨k, e⟩, es⟩
    · cases hfirst
    refine .bind L.toOrdered (hlater e List.mem_cons_self w (L.le_refl w)) fun w₁ u h => ?_
    refine .bind L.toOrdered (agrees_evalEntries L R (L.scope_mono h hc) _ fun e' he => ?_) fun _ m _ => ?_
    · have hentry : ∀ q ∈ [e'.1, e'.2], S.fits w q := fun q hq =>
        hrest q (List.mem_cons_of_mem e (List.mem_flatMap.mpr ⟨e', he, hq⟩))
      exact ⟨L.fits_mono (L.unwound_of_le h) (hentry _ (by simp)),
        L.fits_mono (L.unwound_of_le h) (hentry _ (by simp))⟩
    · exact .make L (Heap.makes_newMap fun _ _ _ => rfl)
  | declare ty x value =>
    refine .bindOn L.toOrdered (converts_coerce L R w v ty) fun w₁ v h hv => ?_
    exact .bind L.toOrdered (.declare L (L.scope_mono h hc) x hv) fun _ _ _ => .pure L.toOrdered v
  | assign x e =>
    refine .bindOn L.toOrdered (agrees_lookup L hc x) fun w₁ slot _ hslot => ?_
    cases slot with
    | some slot => exact agrees_store L R (hslot slot rfl) x v
    | none => exact .fail L.toOrdered _
  | constObject cls x e =>
    refine .bindOn L.toOrdered
      (.suiting L (agrees_checkInstance L v cls) (gives_checkInstance v cls)) fun w₁ v h hv => ?_
    have hslot : S.suits w₁ (Slot.mk (.object cls) v false).type (Slot.mk (.object cls) v false).value :=
      hv
    exact .bind L.toOrdered (.declareSlot L (L.scope_mono h hc) x hslot) fun _ _ _ =>
      .pure L.toOrdered v
  | binary op l r => exact agrees_afterLeft L R op v (hlater r List.mem_cons_self)
  | unary op e => exact agrees_applyUnary L R op v
  | ternary cond yes no =>
    refine .bind L.toOrdered (agrees_toBool L R v) fun w₁ b h => ?_
    cases b with
    | true => exact hlater yes (by simp [Node.parts]) w₁ h
    | false => exact hlater no (by simp [Node.parts]) w₁ h
  | index e keys =>
    exact .bind L.toOrdered (agrees_evalAll L R hc hrest) fun _ ks _ => agrees_indexGet L R v ks
  | indexAssign e keys new =>
    refine .bind L.toOrdered (agrees_evalAll L R hc fun k hk => ?_) fun w₁ ks h => ?_
    · exact hrest k (List.mem_cons_of_mem new hk)
    · exact .bind L.toOrdered (hlater new List.mem_cons_self w₁ h) fun _ u _ =>
        agrees_indexSet L R v ks u
  | field e x =>
    exact .bindOn L.toOrdered (agrees_fieldSlot L v x) fun _ slot _ _ => .heap L fun A =>
      A.valueAt slot
  | fieldAssign e x new =>
    refine .bindOn L.toOrdered (agrees_fieldSlot L v x) fun w₁ slot h hslot => ?_
    refine .bind L.toOrdered (hlater new List.mem_cons_self w₁ h) fun w₂ u h₂ => ?_
    exact agrees_store L R (hslot.imp fun _ => L.typed_mono h₂) x u
  | methodCall e m args =>
    cases v with
    | object i =>
      refine .bindOn L.toOrdered (agrees_findMethod L i m args.length) fun w₁ r h hi => ?_
      refine .bind L.toOrdered (agrees_evalArgs L R (L.scope_mono h hc) r.params fun a ha => ?_) ?_
      · exact L.fits_mono (L.unwound_of_le h) (hrest a ha)
      · exact fun w₂ vs h₂ => agrees_callMethod L R (hi.mono L.toTypingLaws h₂) r vs
    | _ =>
      exact .bind L.toOrdered (.heap L fun A => A.typeName _) fun _ _ _ => .fail L.toOrdered _
  | breakWith e => exact .raise L.toOrdered fun _ h => .breakLoop v h
  | returnWith e => exact .raise L.toOrdered fun _ h => .returnValue v (L.unwound_of_le h)
  | throwValue e =>
    refine .bind L.toOrdered (.heap L fun A => A.isInstance exceptionClass v) fun w₁ b _ => ?_
    cases b with
    | true => exact .raise L.toOrdered fun _ h => .throwValue v (L.unwound_of_le h)
    | false => exact .fail L.toOrdered _
  | _ => cases hfirst

/-- What every node but a `try` does. -/
theorem agrees_dispatch {c c' : Nat} (hc : S.scope w c c') {e : Node} (he : S.fits w e)
    (htry : ∀ body x handler, e ≠ .tryCatch body x handler) :
    S.Agrees ev ev' w (dispatch e c) (dispatch e c') := by
  have hpart : ∀ p ∈ e.parts, S.fits w p := fun p hp => L.fits_part he hp
  cases hfirst : e.first? with
  | some p =>
    rw [parts_of_first hfirst] at hpart
    rw [dispatch_of_first hfirst, dispatch_of_first hfirst]
    refine .bind L.toOrdered (R.eval (hpart p List.mem_cons_self) hc) fun w₁ v h => ?_
    refine agrees_afterFirst L R (L.scope_mono h hc) hfirst (fun q hq => ?_) v
    exact L.fits_mono (L.unwound_of_le h) (hpart q (List.mem_cons_of_mem p hq))
  | none =>
    cases e with
    | literal l => exact .pure L.toOrdered _
    | template t => exact agrees_evalTemplate L R hc he
    | var x => exact .read L hc x
    | this => exact .read L hc "this"
    | listLiteral es =>
      exact .bind L.toOrdered (agrees_evalAll L R hc hpart) fun _ vs _ => agrees_newList L vs
    | mapLiteral es =>
      refine .bind L.toOrdered (agrees_evalEntries L R hc .empty fun e he => ⟨?_, ?_⟩) fun _ m _ => ?_
      · exact hpart e.1 (List.mem_flatMap.mpr ⟨e, he, by simp⟩)
      · exact hpart e.2 (List.mem_flatMap.mpr ⟨e, he, by simp⟩)
      · exact .make L (Heap.makes_newMap fun _ _ _ => rfl)
    | lambda params body =>
      exact agrees_capture L (fun _ h => by cases h) fun _ _ h => .lambda params body (h c c' hc)
    | declare ty x value =>
      cases hfirst
      exact agrees_declareDefault L hc ty x
    | delete x => exact agrees_delete L hc x
    | call site f args => exact agrees_evalCall L R hc he
    | block es => exact agrees_evalBlock L R hc he
    | branch arms otherwise => exact agrees_evalBranch L R hc he
    | whileLoop cond body => exact agrees_evalWhile L R hc he
    | forRange x ty a b direction body => exact agrees_evalRange L R hc he
    | forEach x e body => exact agrees_evalEach L R hc he
    | breakWith value =>
      cases hfirst
      exact .raise L.toOrdered fun _ h => .breakLoop _ h
    | continueLoop => exact .raise L.toOrdered fun _ h => .continueLoop h
    | returnWith e => exact agrees_evalReturn L R hc fun e' h => hpart e' (Option.mem_toList.mpr h)
    | yieldWith e => exact agrees_evalYield L R hc he
    | tryCatch body x handler => exact absurd rfl (htry body x handler)
    | functionDef d => exact agrees_functionDef L d
    | classDef d => exact agrees_classDef L d
    | _ => cases hfirst

/-- What every node does, where an exception unwinds without leaving a scope. -/
theorem agrees_dispatch_of_steady {c c' : Nat} (hc : S.scope w c c') {e : Node} (he : S.fits w e)
    (hsteady : ∀ {w w' : S.World}, S.unwound w w' → S.le w w') :
    S.Agrees ev ev' w (dispatch e c) (dispatch e c') := by
  by_cases h : ∃ body x handler, e = .tryCatch body x handler
  · obtain ⟨body, x, handler, rfl⟩ := h
    have hguard : S.Guards ev ev' (pure ()) (pure ()) := fun h _ => Or.inr ⟨hsteady h, rfl, rfl⟩
    show S.Agrees ev ev' w (evalTry body x handler c) (evalTry body x handler c')
    rw [evalTry_eq]
    exact agrees_evalTryWith L R hguard hc he
  · exact agrees_dispatch L R hc he fun body x handler heq => h ⟨body, x, handler, heq⟩

end

/-! ## Evaluators -/

/-- Evaluators that are tied to themselves agree on all nodes, if what they make of a node agrees
whenever the evaluators inside it do. -/
theorem ready_evaluateBy {account account' : Node → Nat → Exec Value}
    (h : ∀ {ev ev' : Evaluator} {w : S.World} {e : Node} {c c' : Nat}, S.Ready ev ev' →
      S.fits w e → S.scope w c c' → S.Agrees ev ev' w (account e c) (account' e c')) (n : Nat) :
    S.Ready (.untraced n (evaluateBy account n)) (.untraced n (evaluateBy account' n)) := by
  induction n with
  | zero =>
    refine ⟨rfl, fun _ _ _ => rfl, fun _ _ _ => rfl, fun _ _ _ _ hs => ?_⟩
    exact .halted .outOfFuel (L.unwound_of_le (L.le_refl _)) hs
  | succ n ih =>
    refine ⟨rfl, fun _ _ _ => rfl, fun _ _ _ => rfl, fun {w e c c'} he hc => ?_⟩
    intro s s' hs
    refine Run.bind L.toOrdered (L.enterNode _ _) (fun w₁ _ h₁ => ?_) s s' hs
    exact h ih (L.fits_mono (L.unwound_of_le h₁) he) (L.scope_mono h₁ hc)

/-- The evaluator agrees with itself, where an exception unwinds without leaving a scope. -/
theorem ready_evaluator (hsteady : ∀ {w w' : S.World}, S.unwound w w' → S.le w w') (fuel : Nat) :
    S.Ready (evaluator fuel) (evaluator fuel) := by
  unfold evaluator
  rw [evaluateNode_eq_evaluateBy]
  refine ready_evaluateBy L (fun {ev ev' w e c c'} R he hc => ?_) fuel
  exact agrees_dispatch_of_steady L R hc he hsteady

end Simulation
end TreeScript
