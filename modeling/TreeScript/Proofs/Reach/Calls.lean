import TreeScript.Proofs.Constructs
import TreeScript.Proofs.Reach.Expressions

/-
# Calls, within reach

A call runs in a scope that the pool hands out, in one inside the root, or in one inside the scope of a callable,
an object or a coroutine: all of these are within reach if what is called is.  Functions are called in the scope
of the caller by native code alone, and callables leave the scopes in which they were made as they are.
-/

namespace TreeScript
namespace Exec

variable {r : Reach} {ev : Evaluator} {inside : Prop} {v : Value} {args : List Value} {c i : Nat}

/-! ## Coroutines -/

/-- A coroutine that stops is one whose way back is within reach. -/
theorem within_untilYield (hi : r.coroutine i) {x : Exec Value} (hx : Within r ev inside r.Has x) :
    Within r ev inside r.Has (untilYield i x) := by
  intro s hs hin
  obtain ⟨hends, hheld⟩ := hx s hs hin
  unfold untilYield
  generalize x ev s = o at hends hheld
  have hset (co : Coroutine) (hco : r.HasCoroutine co) :
      (o.2.withHeap (o.2.heap.setCoroutine i co)).Confined r ∧ s.Kept (o.2.withHeap (o.2.heap.setCoroutine i co)) :=
    ⟨hends.confined.withHeap (hends.confined.heap.setCoroutine hi hco), { hends.kept with }⟩
  have hold := hends.confined.heap.coroutines.ok i hi
  have hfinished := hset (o.2.heap.coroutine i).finish ⟨hold.args, hold.origin, hold.scope, List.forall_mem_nil _⟩
  have houtcome := hends.outcome.settled
  -- only a `yield` leaves the coroutine with a way back; all other ends finish it
  obtain ⟨_ | (_ | _ | _ | ⟨w, frames⟩ | _ | _) | _, t⟩ := o
  case signal.yieldValue =>
    have hsuspended := hset ((t.heap.coroutine i).suspend frames) ⟨hold.args, hold.origin, hold.scope, hends.outcome.2⟩
    exact ⟨⟨hends.outcome.1, hsuspended.1, hsuspended.2⟩, fun held h => by rw [hheld held h]; rfl⟩
  all_goals exact ⟨⟨houtcome, hfinished.1, hfinished.2⟩, fun held h => by rw [hheld held h]; rfl⟩

variable (R : r.Ready ev)
include R

theorem within_resumeCoroutine (hi : r.coroutine i) : Within r ev True r.Has (resumeCoroutine i) := by
  refine (Within.plain _).next fun name => Within.asCall ?_ name
  refine (Within.heap fun h H => H.coroutines.ok i hi).bind fun co hco => ?_
  have hbegin : Within r ev True (fun begun => co.begin? = .ok begun) (ofExcept co.begin?) :=
    .ofExcept fun _ h => h
  refine hbegin.bind fun begun hbegun => ?_
  split
  · exact .give trivial
  · obtain ⟨rfl, rfl⟩ := Coroutine.begin?_eq_some hbegun
    have hrunning : Within r ev True (fun _ => True)
        (modifyHeap fun h => h.setCoroutine i { co with state := .running, frames := [] }) :=
      .modifyHeap fun h H => H.setCoroutine hi ⟨hco.args, hco.origin, hco.scope, List.forall_mem_nil _⟩
    refine hrunning.next fun _ => (R.entering co.params co.args).next fun _ => ?_
    exact within_untilYield hi (.body hco.frames (R.eval co.body hco.scope))

/-! ## Parameters and objects -/

theorem within_bindParams (hc : r.scope c) (params : List Param) (hargs : ∀ v ∈ args, r.Has v) :
    Within r ev inside (fun _ => True) (bindParams c params args) :=
  within_bindParamsWith (converts_coerce R) hc params hargs

theorem within_convertArgs (params : List Param) (hargs : ∀ v ∈ args, r.Has v) :
    Within r ev inside (fun vs => ∀ v ∈ vs, r.Has v) (convertArgs params args) :=
  within_convertArgsWith (converts_coerce R) params hargs

theorem within_fieldDefault (hc : r.scope c) (f : FieldDecl Node) : Within r ev True r.Has (fieldDefault f c) := by
  unfold fieldDefault
  split
  · exact (R.eval _ hc).settle
  · exact .make fun h H => H.defaultValue f.type

theorem within_initFields (hi : r.object i) (hc : r.scope c) (fields : List (FieldDecl Node)) :
    Within r ev True (fun _ => True) (initFields i c fields) := by
  induction fields with
  | nil => exact .give trivial
  | cons f fs ih =>
    refine (within_fieldDefault R hc f).bind fun v hv => (within_coerce R hv f.type).bind fun w hw => ?_
    exact (Within.modifyHeap fun h H => H.declare (H.fields hi) f.type hw).next fun _ => ih

omit R in
theorem within_root : Within r ev inside r.scope (session (·.root)) := .session fun _ hs => hs.root

theorem within_instantiate {cls : ClassDef} (hcls : r.HasClass cls) (ctor : Option (ConstructorDecl Node))
    (hargs : ∀ v ∈ args, r.Has v) : Within r ev inside r.Has (instantiate cls ctor args) := by
  refine within_root.bind fun root hroot => ?_
  refine (Within.make fun h H => H.newObject hcls hroot).bind fun i hi => ?_
  refine (within_methodScope hi).bind fun scope hscope => ?_
  refine (Within.asBarrier ((within_initFields R hi hscope cls.fields).next fun _ => ?_) cls.name).next
    fun _ => .give hi
  split
  · rename_i d
    refine (R.entering d.params args).next fun _ => (within_bindParams R hscope d.params hargs).next fun _ => ?_
    exact (R.eval d.body hscope).settle.next fun _ => .give trivial
  · exact .give trivial

/-! ## Functions of the program -/

omit R in
/-- A scope that the pool hands out is within reach. -/
theorem within_acquireScope (function : Option Nat) : Within r ev inside r.scope (acquireScope function) := by
  have hnew {root : Nat} (hroot : r.scope root) : Within r ev inside r.scope (make fun h => h.newScope root) :=
    .make fun h H => ⟨H.scope_size, H.newScope hroot⟩
  refine within_root.bind fun root hroot => ?_
  cases function with
  | none => exact hnew hroot
  | some function =>
    have hacquire : Within r ev inside
        (fun found => ∀ p ∈ found, r.scope p.1 ∧ ∀ function, ∀ c ∈ p.2.idle function, r.scope c)
        (session fun s => s.pool.acquire? function) := by
      refine .session fun s hs p hp => ?_
      obtain ⟨hidle, hothers⟩ := Pool.idle_of_acquire? (Option.mem_def.mp hp)
      refine ⟨hs.idle function p.1 (by rw [hidle]; exact List.mem_cons_self), fun g c hc => ?_⟩
      -- the other idle scopes stay with their functions
      by_cases hg : g = function
      · subst hg
        exact hs.idle g c (by rw [hidle]; exact List.mem_cons_of_mem _ hc)
      · exact hs.idle g c (hothers g hg ▸ hc)
    refine hacquire.bind fun found hfound => ?_
    cases found with
    | none => exact (Within.meter _).next fun _ => hnew hroot
    | some p =>
      obtain ⟨hscope, hidle⟩ := hfound p rfl
      have hpool : Within r ev inside (fun _ => True)
          (modifySession fun s => { s with pool := p.2, meter := s.meter.countPool true }) :=
        .modifySession fun s hs _ => ⟨{ hs with idle := hidle }, ⟨.refl _, fun _ h => h, rfl⟩⟩
      refine hpool.next fun _ => ?_
      exact (Within.modifyHeap fun h H => H.clear hscope).next fun _ => .give hscope

theorem within_runScript (function : Option Nat) (params : List Param) (body : Node) (hargs : ∀ v ∈ args, r.Has v) :
    Within r ev True r.Has (runScript function params body args) := by
  refine (within_acquireScope function).bind fun scope hscope => Within.settle (Within.withFrame ?_ ?_)
  · rintro _ ⟨⟩
    exact hscope
  · refine (R.entering params args).next fun _ => (within_bindParams R hscope params hargs).next fun _ => ?_
    exact R.eval body hscope

/-! ## The core library -/

theorem within_joinTexts (hargs : ∀ v ∈ args, r.Has v) : Within r ev inside (fun _ => True) (joinTexts args) :=
  (Within.mapM fun v hv => within_stringify R (hargs v hv)).next fun _ => .give trivial

theorem within_cloneValue (hv : r.Has v) : Within r ev inside r.Has (cloneValue v) := by
  have hcopy : Within r ev inside (fun copy => ∀ p ∈ copy, r.Has p.1 ∧ p.2.Confined r)
      (heap fun h => h.shallowCopy? v) :=
    .heap fun h H p hp => H.shallowCopy hv hp
  refine hcopy.bind fun copy hcopied => ?_
  split
  · obtain ⟨hw, hheap⟩ := hcopied _ rfl
    exact (Within.modifyHeap fun _ _ => hheap).next fun _ => .give hw
  · split
    · exact within_callNamedMethod R hv "clone" (List.forall_mem_nil _)
    · exact .give hv

omit R in
theorem hasMap_ofList {entries : List (Value × Value)} (h : ∀ e ∈ entries, r.Has e.1 ∧ r.Has e.2) :
    r.HasMap (.ofList entries) := by
  unfold OrderedMap.ofList
  have hm : r.HasMap .empty := Reach.hasMap_empty
  generalize OrderedMap.empty = m at hm ⊢
  induction entries generalizing m with
  | nil => exact hm
  | cons e es ih =>
    obtain ⟨hkey, hvalue⟩ := h e List.mem_cons_self
    exact ih (fun e' he' => h e' (List.mem_cons_of_mem e he')) _ (hm.insert hkey hvalue)

omit R in
theorem has_pairUp (hargs : ∀ v ∈ args, r.Has v) : ∀ e ∈ pairUp args, r.Has e.1 ∧ r.Has e.2 := by
  fun_induction pairUp args with
  | case1 k v rest ih =>
    have hrest := ih fun u hu => hargs u (List.mem_cons_of_mem k (List.mem_cons_of_mem v hu))
    refine List.forall_mem_cons.mpr ⟨⟨hargs k List.mem_cons_self, ?_⟩, hrest⟩
    exact hargs v (List.mem_cons_of_mem k List.mem_cons_self)
  | case2 => exact nofun

theorem within_runCore (core : CoreFunction) (hargs : ∀ v ∈ args, r.Has v) {accepting : Exec Value}
    (haccepting : Within r ev True r.Has accepting) : Within r ev True r.Has (runCore core args accepting) := by
  have harg : r.Has (args.headD .null) := by
    cases args with
    | nil => trivial
    | cons v vs => exact hargs v List.mem_cons_self
  unfold runCore
  cases core with
  | print | printn =>
    exact (within_joinTexts R hargs).next fun text => (Within.noted fun _ => rfl).next fun _ => .give trivial
  | typeOf | identity | hexIdentity => exact .heap fun _ _ => trivial
  | isNull => exact .give trivial
  | convert _ ty => exact within_castValue R harg ty
  | clone => exact within_cloneValue R harg
  | exit => exact (Within.noted fun _ => rfl).next fun _ => .give trivial
  | accept => exact haccepting
  | resume =>
    dsimp only
    split
    · rename_i j harg'
      rw [harg'] at harg
      exact within_resumeCoroutine R harg
    · exact within_typeMismatch _ _
  | isFinished =>
    dsimp only
    split
    · exact .heap fun _ _ => trivial
    · exact within_typeMismatch _ _
  | listOf => exact within_newList hargs
  | mapOf =>
    dsimp only
    split
    · exact .fail _
    · exact .make fun h H => H.newMap (hasMap_ofList (has_pairUp hargs))

/-! ## Invocation -/

theorem within_runRoutine (function : Option Nat) {m : Routine} (hm : r.HasRoutine m) (hargs : ∀ v ∈ args, r.Has v)
    (hc : r.scope c) : Within r ev True r.Has (runRoutine function m args c) := by
  unfold runRoutine
  split
  · rename_i action hbody
    refine Within.asNative ((within_convertArgs R m.params hargs).bind fun vs hvs => ?_)
    exact within_runNative R hm hbody hc hvs
  · exact within_runScript R function m.params _ hargs
  · refine (within_convertArgs R m.params hargs).bind fun vs hvs => within_root.bind fun root hroot => ?_
    exact within_newCoroutine m.name m.params _ hvs hroot

/-- A call, if the one that `consumer.accept` makes stays within reach. -/
theorem within_invokeWith {accepting : Exec Value} (haccepting : Within r ev True r.Has accepting)
    (function : Option Nat) {f : Function} (hf : r.HasFunction f) (hargs : ∀ v ∈ args, r.Has v) (hc : r.scope c) :
    Within r ev True r.Has (invokeWith accepting function f args c) := by
  refine (Within.meter _).next fun _ => Within.asCall (Within.withResume (List.forall_mem_nil _) ?_) f.name
  cases f with
  | routine m => exact within_runRoutine R function hf hargs hc
  | core core =>
    refine Within.asNative ((within_convertArgs R core.parameters.list hargs).bind fun vs hvs => ?_)
    exact within_runCore R core hvs haccepting
  | constructor cls decl? => exact within_instantiate R hf decl? hargs

theorem within_applyCallable {accepting : Exec Value} (haccepting : Within r ev True r.Has accepting)
    (hc : r.scope c) (hargs : ∀ v ∈ args, r.Has v) {k : Callable} (hk : r.HasCallable k) :
    Within r ev True r.Has (applyCallable accepting c args k) := by
  cases k with
  | function f =>
    unfold applyCallable
    dsimp only
    split
    · exact within_invokeWith R haccepting none hk hargs hc
    · exact .fail _
  | lambda params body scope =>
    refine (Within.meter _).next fun _ => ?_
    refine (Within.make fun h H => ⟨H.scope_size, H.newScope hk⟩).bind fun inner hinner => Within.asBarrier ?_ _
    split
    · exact .fail _
    · refine (R.entering params args).next fun _ => (within_bindParams R hinner params hargs).next fun _ => ?_
      exact R.eval body hinner
  | deferred expr scope => exact Within.asBarrier (R.eval expr hk) "<consumer>"

omit R in
theorem within_callable (hi : r.callable i) : Within r ev inside r.HasCallable (heap fun h => h.callable i) :=
  .heap fun _ H => H.callables.ok i hi

theorem within_callCallable (hc : r.scope c) (hargs : ∀ v ∈ args, r.Has v) (hi : r.callable i) :
    Within r ev True r.Has (callCallable c args i) := by
  -- `consumer.accept` calls its first argument with the others
  induction args generalizing i with
  | nil =>
    rw [callCallable_eq]
    exact (within_callable hi).bind fun k hk => within_applyCallable R (.fail _) hc hargs hk
  | cons v vs ih =>
    rw [callCallable_eq]
    refine (within_callable hi).bind fun k hk => within_applyCallable R ?_ hc hargs hk
    obtain ⟨hv, hvs⟩ := List.forall_mem_cons.mp hargs
    cases v with
    | callable next => exact ih hvs hv
    | _ => exact .fail _

theorem within_accept (hc : r.scope c) (hargs : ∀ v ∈ args, r.Has v) : Within r ev True r.Has (accept c args) := by
  unfold accept
  split
  · obtain ⟨hcallee, hrest⟩ := List.forall_mem_cons.mp hargs
    exact within_callCallable R hc hrest hcallee
  · exact .fail _

theorem within_invoke (function : Option Nat) {f : Function} (hf : r.HasFunction f) (hargs : ∀ v ∈ args, r.Has v)
    (hc : r.scope c) : Within r ev True r.Has (invoke function f args c) :=
  within_invokeWith R (within_accept R hc hargs) function hf hargs hc

/-! ## Call sites -/

omit R in
/-- Whether a site remembers its function or not, it is one of the catalog. -/
theorem within_resolveCall (site : Nat) (name : String) (argc : Nat) :
    Within r ev inside (fun callee => r.HasFunction callee.2) (resolveCall site name argc) := by
  intro s hs _
  have hheld (held : List Value) : remembered site (s.withHeld held) = remembered site s ∧
      (s.withHeld held).session = s.session := ⟨rfl, rfl⟩
  simp only [resolveCall_apply, hheld]
  cases hremembered : remembered site s with
  | some callee =>
    obtain ⟨slot, -, hslot⟩ := Option.bind_eq_some_iff.mp hremembered
    obtain ⟨f, hf, rfl⟩ := Option.map_eq_some_iff.mp hslot
    exact ⟨⟨hs.functions slot f hf, hs, .refl s⟩, fun _ _ => rfl⟩
  | none =>
    cases hcallee : s.session.catalog.callee? name argc with
    | some callee =>
      have hf := hs.functions callee.1 callee.2 (Catalog.get?_of_callee? hcallee)
      exact ⟨⟨hf, { hs with }, { State.Kept.refl s with }⟩, fun _ _ => rfl⟩
    | none => exact ⟨⟨trivial, hs, .refl s⟩, fun _ _ => rfl⟩

omit R in
theorem within_capture {k : Callable} (hk : r.HasCallable k) : Within r ev inside r.Has (capture k) :=
  Within.retain.next fun _ => .make fun _ H => H.newCallable hk

theorem within_evalArgs (hc : r.scope c) (params : List Param) (es : List Node) :
    Within r ev True (fun vs => ∀ v ∈ vs, r.Has v) (evalArgs c params es) := by
  induction es generalizing params with
  | nil =>
    unfold evalArgs
    exact .give (List.forall_mem_nil _)
  | cons e es ih =>
    have hrest : ∀ v, r.Has v → Within r ev True (fun vs => ∀ v ∈ vs, r.Has v)
        (do return v :: (← evalArgs c params.tail es)) := fun v hv =>
      (ih params.tail).bind fun vs hvs => .give (List.forall_mem_cons.mpr ⟨hv, hvs⟩)
    unfold evalArgs
    dsimp only
    split
    · exact (within_capture (k := .deferred e c) hc).bind hrest
    · exact (R.eval e hc).bind hrest

theorem within_evalCall (hc : r.scope c) (site : Nat) (name : String) (es : List Node) (tail : Bool) :
    Within r ev True r.Has (evalCall site name es c tail) := by
  rw [evalCall_eq]
  refine (within_resolveCall site name es.length).bind fun callee hcallee => ?_
  refine (within_evalArgs R hc callee.2.params es).bind fun vs hvs => ?_
  have hinvoke := within_invoke R (some callee.1) hcallee hvs hc
  dsimp only
  split
  · exact Within.release.next fun _ => hinvoke
  · exact hinvoke

theorem within_evalMethodCall (hc : r.scope c) (target : Node) (method : String) (es : List Node) :
    Within r ev True r.Has (evalMethodCall target method es c) := by
  refine (R.eval target hc).bind fun v hv => ?_
  split
  · refine (within_findMethod hv method es.length).bind fun m hm => ?_
    exact (within_evalArgs R hc m.params es).bind fun vs hvs => within_callMethod R hv hm hvs
  · exact (Within.plain _).next fun _ => .fail _

end Exec
end TreeScript
