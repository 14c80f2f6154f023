import TreeScript.Proofs.Constructs
import TreeScript.Proofs.Logic.Failures
import TreeScript.Proofs.Simulation.Lawful

/-
# A logic of evaluations

To show something of all evaluations takes going through all constructs of the language, and most of the
way is the same whatever is shown: evaluations are put together by few rules, from steps of which most
change little.  A `Logic` is a judgement `holds w x Q`, to be read as "from a state that is good in the
world `w` the evaluation `x` ends as it should, and a value that it gives is one of `Q`", and it is
`Lawful` if it has the rules.  The files beside this one go through the constructs once, for every lawful
logic.

What is known of the state and of the code in it grows while an evaluation proceeds, and is recorded in a
*world*.  Most constructs do with what they read, so that they end as they should in every world
(`Logic.Keeps`); those that are given code to evaluate do in the worlds in which the code is known
(`Logic.KeepsAt`).

Most steps leave the `Core` of the state as it is: the code that the heap and the session hold, what the
call sites remember, and what the session counts; and they leave the coroutines and the live calls as they are.
The failures with which they end begin there (`Outcome.Fresh`).  The steps which do not have rules of their own,
and so have those which read code from the state and go on to run it, the one that throws an exception, and the
one that may raise a failure again.  A coroutine that is resumed changes before and after its body runs, which is
one rule (`StepLaws.resumed`).  A logic that looks at the core alone has it from its other rules
(`CoreRules.resumed`).

A boundary hands failures on with their message and backtrace (`Transparent`), and fatal ones as they are; a
handler takes failures that may be caught, which are not fatal.
-/

namespace TreeScript

/-! ## Fatal errors -/

/-- The causes that nothing in a program may intercept. -/
def ErrorCause.isFatal : ErrorCause → Bool
  | cancelled | stepBudgetExceeded _ | stackOverflow _ => true
  | _ => false

/-- No handler of the program takes a fatal error. -/
theorem ErrorCause.isCatchable_of_isFatal {cause : ErrorCause} (h : cause.isFatal = true) :
    cause.isCatchable = false := by
  cases cause <;> first | rfl | cases h

/-- A fatal error stays what it is on its way out of native code. -/
theorem ErrorCause.isKept_of_isFatal {cause : ErrorCause} (h : cause.isFatal = true) :
    cause.isKept = true := by
  cases cause <;> first | rfl | cases h

/-! ## Fatal outcomes -/

/-- The cause of a fatal error. -/
def Signal.fatal? : Signal → Option ErrorCause
  | .error e => if e.cause.isFatal then some e.cause else none
  | _ => none

/-- The cause of the fatal error with which an evaluation ends. -/
def Outcome.fatal? {α : Type} : Outcome α → Option ErrorCause
  | .signal g => g.fatal?
  | _ => none

namespace Outcome

variable {α : Type} {o : Outcome α} {cause : ErrorCause}

theorem fatal?_error (e : EvalError) :
    (Outcome.signal (.error e) : Outcome α).fatal? = if e.cause.isFatal then some e.cause else none :=
  rfl

theorem eq_error_of_fatal? (h : o.fatal? = some cause) :
    ∃ e, o = .signal (.error e) ∧ e.cause = cause ∧ cause.isFatal = true := by
  rcases o with _ | (_ | _ | _ | _ | _ | e) | _ <;> try cases h
  rw [fatal?_error] at h
  split at h
  · rename_i hfatal
    cases h
    exact ⟨e, rfl, rfl, hfatal⟩
  · cases h

end Outcome

namespace Exec

/-- What changes the failures and keeps the causes of fatal ones changes no fatal outcome. -/
theorem fatal?_onErrors {α : Type} {f : EvalError → EvalError}
    (hfatal : ∀ e : EvalError, e.cause.isFatal = true → (f e).cause = e.cause)
    (hmild : ∀ e : EvalError, e.cause.isFatal = false → (f e).cause.isFatal = false) (o : Outcome α) :
    (onErrors f o).fatal? = o.fatal? := by
  rcases o with _ | (_ | _ | _ | _ | _ | e) | _ <;> try rfl
  show (Outcome.signal (.error (f e)) : Outcome α).fatal? = _
  rw [Outcome.fatal?_error, Outcome.fatal?_error]
  cases he : e.cause.isFatal with
  | true => rw [hfatal e he, he]
  | false => rw [hmild e he, if_neg Bool.false_ne_true, if_neg Bool.false_ne_true]

/-- A backtrace changes no cause. -/
theorem cause_attach (calls : CallStack) (e : EvalError) : (calls.attach e).cause = e.cause := by
  unfold CallStack.attach EvalError.withBacktrace
  split <;> rfl

theorem fatal?_attach {α : Type} (calls : CallStack) (o : Outcome α) :
    (onErrors calls.attach o).fatal? = o.fatal? :=
  fatal?_onErrors (fun e _ => cause_attach calls e) (fun e h => by rw [cause_attach calls e, h]) o

theorem fatal?_hostFailed {α : Type} (o : Outcome α) : (hostFailed o).fatal? = o.fatal? := by
  rw [hostFailed_eq_onErrors]
  refine fatal?_onErrors (fun e h => ?_) (fun e h => ?_) o
  · unfold EvalError.asHostFailure
    rw [ErrorCause.isKept_of_isFatal h, Bool.not_true, Bool.and_false]
    rfl
  · unfold EvalError.asHostFailure
    split
    · rfl
    · exact h

theorem fatal?_settled (o : Outcome Value) : (settled o).fatal? = o.fatal? := by
  rcases o with _ | (_ | _ | _ | _ | _ | _) | _ <;> rfl

theorem fatal?_passedBy (frame : ResumeFrame) (o : Outcome Value) :
    (passedBy frame o).fatal? = o.fatal? := by
  rcases o with _ | (_ | _ | _ | _ | _ | _) | _ <;> rfl

theorem fatal?_roundEnd (o : Outcome Value) : (roundEnd o).fatal? = o.fatal? := by
  rcases o with _ | (_ | _ | _ | _ | _ | _) | _ <;> rfl

end Exec

/-! ## Ways back -/

/-- A `yield` that leaves an evaluation has a way back to it. -/
def Outcome.LeadsBack {α : Type} : Outcome α → Prop
  | .signal (.yieldValue _ frames) => frames ≠ []
  | _ => True

namespace Exec

theorem leadsBack_onErrors {α : Type} (f : EvalError → EvalError) {o : Outcome α} (h : o.LeadsBack) :
    (onErrors f o).LeadsBack := by
  rcases o with _ | (_ | _ | _ | _ | _ | _) | _ <;> exact h

theorem leadsBack_hostFailed {α : Type} {o : Outcome α} (h : o.LeadsBack) : (hostFailed o).LeadsBack := by
  rw [hostFailed_eq_onErrors]
  exact leadsBack_onErrors _ h

theorem leadsBack_settled (o : Outcome Value) : (settled o).LeadsBack := by
  rcases o with _ | (_ | _ | _ | _ | _ | _) | _ <;> trivial

theorem leadsBack_passedBy (frame : ResumeFrame) (o : Outcome Value) : (passedBy frame o).LeadsBack := by
  rcases o with _ | (_ | _ | _ | _ | _ | _) | _ <;> first | trivial | exact List.cons_ne_nil _ _

theorem leadsBack_roundEnd {o : Outcome Value} (h : o.LeadsBack) : (roundEnd o).LeadsBack := by
  rcases o with _ | (_ | _ | _ | _ | _ | _) | _ <;> exact h

end Exec

/-! ## What leaves a step -/

/-- A step throws nothing, its failures have just been raised, and its `yield`s have a way back. -/
def Outcome.Fresh {α : Type} : Outcome α → Prop
  | .signal (.yieldValue _ frames) => frames ≠ []
  | .signal (.throwValue _) => False
  | .signal (.error e) => e.Fresh
  | _ => True

namespace Outcome.Fresh

variable {α : Type} {o : Outcome α}

theorem leadsBack (h : o.Fresh) : o.LeadsBack := by
  rcases o with _ | (_ | _ | _ | _ | _ | _) | _ <;> trivial

theorem error {e : EvalError} (h : o.Fresh) (ho : o = .signal (.error e)) : e.Fresh := by
  rw [ho] at h
  exact h

theorem not_thrown (h : o.Fresh) (v : Value) : o ≠ .signal (.throwValue v) := by
  rintro rfl
  exact h

end Outcome.Fresh

/-! ## What becomes of failures and exceptions -/

/-- A failure stays as it is, or becomes one of native code with the same message. -/
inductive EvalError.Becomes (e : EvalError) : EvalError → Prop
  | same : e.Becomes e
  | native : e.Becomes { e with cause := .native e.message }

namespace EvalError.Becomes

variable {e e' : EvalError}

theorem backtrace (h : e.Becomes e') : e'.backtrace = e.backtrace := by cases h <;> rfl

theorem asHostFailure (e : EvalError) : e.Becomes e.asHostFailure := by
  unfold EvalError.asHostFailure
  split
  · exact .native
  · exact .same

end EvalError.Becomes

/-- A map of outcomes that hands on failures, exceptions and ways back. -/
structure Outcome.Handing {α β : Type} (f : Outcome β → Outcome α) : Prop where
  fatal : ∀ o, (f o).fatal? = o.fatal?
  leadsBack : ∀ o, o.LeadsBack → (f o).LeadsBack
  failure : ∀ o e, f o = .signal (.error e) → ∃ e', o = .signal (.error e') ∧ e'.Becomes e
  thrown : ∀ o v, f o = .signal (.throwValue v) → o = .signal (.throwValue v)

namespace Exec

theorem handing_id {α : Type} : Outcome.Handing (id : Outcome α → Outcome α) where
  fatal _ := rfl
  leadsBack _ h := h
  failure _ e h := ⟨e, h, .same⟩
  thrown _ _ h := h

theorem handing_hostFailed {α : Type} : Outcome.Handing (hostFailed : Outcome α → Outcome α) where
  fatal := fatal?_hostFailed
  leadsBack _ := leadsBack_hostFailed
  failure o e h := by
    rcases o with _ | (_ | _ | _ | _ | _ | e') | _ <;> cases h
    exact ⟨e', rfl, .asHostFailure e'⟩
  thrown o v h := by
    rcases o with _ | (_ | _ | _ | _ | _ | _) | _ <;> cases h
    rfl

theorem handing_settled : Outcome.Handing settled where
  fatal := fatal?_settled
  leadsBack o _ := leadsBack_settled o
  failure o e h := by
    rcases o with _ | (_ | _ | _ | _ | _ | _) | _ <;> cases h
    exact ⟨e, rfl, .same⟩
  thrown o v h := by
    rcases o with _ | (_ | _ | _ | _ | _ | _) | _ <;> cases h
    rfl

theorem handing_passedBy (frame : ResumeFrame) : Outcome.Handing (passedBy frame) where
  fatal := fatal?_passedBy frame
  leadsBack o _ := leadsBack_passedBy frame o
  failure o e h := by
    rcases o with _ | (_ | _ | _ | _ | _ | _) | _ <;> cases h
    exact ⟨e, rfl, .same⟩
  thrown o v h := by
    rcases o with _ | (_ | _ | _ | _ | _ | _) | _ <;> cases h
    rfl

theorem handing_roundEnd : Outcome.Handing roundEnd where
  fatal := fatal?_roundEnd
  leadsBack _ := leadsBack_roundEnd
  failure o e h := by
    rcases o with _ | (_ | _ | _ | _ | _ | _) | _ <;> cases h
    exact ⟨e, rfl, .same⟩
  thrown o v h := by
    rcases o with _ | (_ | _ | _ | _ | _ | _) | _ <;> cases h
    rfl

end Exec

/-! ## Frames around an evaluation -/

/-- What of a state few steps change. -/
structure Core where
  objects : Array Instance
  callables : Array Callable
  /-- The parameters of a coroutine, its arguments and its body. -/
  starts : Nat → List Param × List Value × Node
  sites : CallSites
  id : Nat
  catalog : Catalog
  classes : Table String ClassDef
  steps : Nat
  budget : Option Nat
  /-- How many nodes were counted, if they are. -/
  nodes : Option Nat
  cancellation : Cancellation

/-- The core of a state. -/
def State.core (s : State) : Core where
  objects := s.heap.objects
  callables := s.heap.callables
  starts i := ((s.heap.coroutine i).params, (s.heap.coroutine i).args, (s.heap.coroutine i).body)
  sites := s.sites
  id := s.session.id
  catalog := s.session.catalog
  classes := s.session.classes
  steps := s.session.meter.steps
  budget := s.session.meter.budget
  nodes := s.session.meter.counters.map Counters.nodes
  cancellation := s.session.cancellation

/-- The core of a state, its coroutines and its live calls. -/
def State.kernel (s : State) : Core × Array Coroutine × CallStack :=
  (s.core, s.heap.coroutines, s.session.calls)

section
variable {s t : State}

theorem State.core_of_kernel (h : t.kernel = s.kernel) : t.core = s.core := congrArg Prod.fst h

theorem State.coroutines_of_kernel (h : t.kernel = s.kernel) : t.heap.coroutines = s.heap.coroutines :=
  congrArg (fun p => p.2.1) h

theorem State.calls_of_kernel (h : t.kernel = s.kernel) : t.session.calls = s.session.calls :=
  congrArg (fun p => p.2.2) h

end

namespace Exec

/-- What is done before and after an evaluation leaves the core as it is, and hands fatal errors on. -/
structure Framing {α β : Type} (before : State → State)
    (after : State → Outcome β × State → Outcome α × State) : Prop where
  core_before : ∀ s, (before s).core = s.core
  core_after : ∀ s r, (after s r).2.core = r.2.core
  fatal : ∀ s r, (after s r).1.fatal? = r.1.fatal?

/-- What is done before and after an evaluation leaves the coroutines as they are, too, and the way back to a
`yield`. -/
structure Steady {α β : Type} (before : State → State)
    (after : State → Outcome β × State → Outcome α × State) : Prop extends Framing before after where
  coroutines_before : ∀ s, (before s).heap.coroutines = s.heap.coroutines
  coroutines_after : ∀ s r, (after s r).2.heap.coroutines = r.2.heap.coroutines
  leadsBack : ∀ s r, r.1.LeadsBack → (after s r).1.LeadsBack

/-- What is done before and after an evaluation leaves the core and the live calls as they are, and hands failures
and exceptions on. -/
structure Passing {α β : Type} (before : State → State)
    (after : State → Outcome β × State → Outcome α × State) : Prop extends Framing before after where
  calls_before : ∀ s, (before s).session.calls = s.session.calls
  calls_after : ∀ s r, (after s r).2.session.calls = r.2.session.calls
  failure : ∀ s r e, (after s r).1 = .signal (.error e) → ∃ e', r.1 = .signal (.error e') ∧ e'.Becomes e
  thrown : ∀ s r v, (after s r).1 = .signal (.throwValue v) → r.1 = .signal (.throwValue v)

/-- What is done before and after an evaluation leaves the coroutines as they are, too, and the way back to a
`yield`. -/
structure Transparent {α β : Type} (before : State → State)
    (after : State → Outcome β × State → Outcome α × State) : Prop
    extends Passing before after, Steady before after

/-- What changes the outcome by a map that hands things on, and nothing else that is looked at. -/
theorem Transparent.of_handing {α β : Type} {before : State → State} {f : Outcome β → Outcome α}
    {after : State → Outcome β × State → Outcome α × State} (hf : Outcome.Handing f)
    (hbefore : ∀ s, (before s).kernel = s.kernel) (hafter : ∀ s r, (after s r).2.kernel = r.2.kernel)
    (houtcome : ∀ s r, (after s r).1 = f r.1) : Transparent before after where
  core_before s := State.core_of_kernel (hbefore s)
  core_after s r := State.core_of_kernel (hafter s r)
  fatal s r := by rw [houtcome s r, hf.fatal]
  coroutines_before s := State.coroutines_of_kernel (hbefore s)
  coroutines_after s r := State.coroutines_of_kernel (hafter s r)
  leadsBack s r h := houtcome s r ▸ hf.leadsBack r.1 h
  calls_before s := State.calls_of_kernel (hbefore s)
  calls_after s r := State.calls_of_kernel (hafter s r)
  failure s r e h := hf.failure r.1 e (houtcome s r ▸ h)
  thrown s r v h := hf.thrown r.1 v (houtcome s r ▸ h)

/-- Evaluate with something done before and after. -/
def framed {α β : Type} (before : State → State)
    (after : State → Outcome β × State → Outcome α × State) (x : Exec β) : Exec α :=
  fun ev s => after s (x ev (before s))

end Exec

open Exec

/-! ## Logics -/

/-- The node that a routine evaluates, if it evaluates one. -/
def RoutineBody.code? : RoutineBody → Option Node
  | native (.evaluate e) | script e | coroutine e => some e
  | native _ => none

/-- A judgement of evaluations, with what it takes for granted of the state and of the code in it. -/
structure Logic where
  /-- What is known. -/
  World : Type
  /-- No less is known in the second world. -/
  le : World → World → Prop
  good : World → State → Prop
  /-- From a state that is good in a world an evaluation ends as it should, in a world in which no less is
  known, and gives a value of a kind if it gives one. -/
  holds : {α : Type} → World → Exec α → (World → α → Prop) → Prop
  /-- The nodes that are evaluated. -/
  code : World → Node → Prop
  /-- The classes that there are. -/
  cls : World → ClassDef → Prop
  /-- The routines that run, with a number of arguments. -/
  routine : World → Routine → Nat → Prop
  /-- The functions that are called, with a number of arguments. -/
  function : World → Function → Nat → Prop
  /-- The parameters and arguments with which bodies begin. -/
  enters : List Param → List Value → Prop

namespace Logic

variable (L : Logic) {α β : Type}

/-- From a state that is good in a world an evaluation ends as it should. -/
def KeepsAt (w : L.World) (x : Exec α) : Prop := L.holds w x fun _ _ => True

/-- From every good state an evaluation ends as it should. -/
def Keeps (x : Exec α) : Prop := ∀ w, L.KeepsAt w x

/-- The code of a callable is known. -/
def Knows (w : L.World) : Callable → Prop
  | .function f => ∀ n, f.arity.accepts n = true → L.function w f n
  | .lambda _ body _ => L.code w body
  | .deferred expr _ => L.code w expr

/-- A constructor may begin with arguments. -/
def Begins (w : L.World) (d : ConstructorDecl Node) (args : List Value) : Prop :=
  L.enters d.params args ∧ L.code w d.body

/-! ### The rules -/

/-- What is known stays known. -/
structure WorldLaws : Prop where
  le_refl : ∀ w, L.le w w
  le_trans : ∀ {w₁ w₂ w₃}, L.le w₁ w₂ → L.le w₂ w₃ → L.le w₁ w₃
  code_mono : ∀ {w w' e}, L.le w w' → L.code w e → L.code w' e
  cls_mono : ∀ {w w' c}, L.le w w' → L.cls w c → L.cls w' c
  routine_mono : ∀ {w w' r n}, L.le w w' → L.routine w r n → L.routine w' r n
  function_mono : ∀ {w w' f n}, L.le w w' → L.function w f n → L.function w' f n

/-- What is known of a piece of code is known of its parts. -/
structure CodeLaws : Prop where
  part : ∀ {w e p}, L.code w e → p ∈ e.parts → L.code w p
  lambda : ∀ {w ps body}, L.code w (.lambda ps body) → L.code w body
  default : ∀ {w c e} {f : FieldDecl Node}, L.cls w c → f ∈ c.fields → f.default? = some e → L.code w e
  method : ∀ {w c name argc m}, L.cls w c → c.method? name argc = some m → L.routine w m argc
  constructor : ∀ {w c d} {args : List Value}, L.cls w c → c.constructor? args.length = some d →
    L.Begins w d args
  body : ∀ {w r n e}, L.routine w r n → r.body.code? = some e → L.code w e
  routine : ∀ {w r n}, L.function w (.routine r) n → L.routine w r n
  constructed : ∀ {w c d} {args : List Value}, L.function w (.constructor c d) args.length →
    L.cls w c ∧ ∀ d', d = some d' → L.Begins w d' args
  entersRoutine : ∀ {w r} {args : List Value}, L.routine w r args.length →
    (∀ action, r.body ≠ .native action) → L.enters r.params args
  entersLambda : ∀ {ps : List Param} {args : List Value}, ps.length = args.length → L.enters ps args

/-- The code in a good state is known. -/
structure StateLaws : Prop where
  classOf : ∀ {w s}, L.good w s → ∀ i, L.cls w (s.heap.classOf i)
  callable : ∀ {w s}, L.good w s → ∀ i, L.Knows w (s.heap.callable i)
  coroutine : ∀ {w s}, L.good w s → ∀ i, L.code w (s.heap.coroutine i).body ∧
    L.enters (s.heap.coroutine i).params (s.heap.coroutine i).args
  findClass : ∀ {w s name c}, L.good w s → s.session.classes.find? name = some c → L.cls w c
  callee : ∀ {w s slot f name argc}, L.good w s →
    s.session.catalog.callee? name argc = some (slot, f) → L.function w f argc

/-- The ways of putting evaluations together. -/
structure Rules : Prop where
  weaken : ∀ {w} {α : Type} {x : Exec α} {Q Q' : L.World → α → Prop}, L.holds w x Q →
    (∀ w' a, Q w' a → Q' w' a) → L.holds w x Q'
  /-- A step that leaves the core, the coroutines and the live calls as they are. -/
  step : ∀ {w} {α : Type} (f : State → Outcome α × State) {Q : L.World → α → Prop},
    (∀ s, L.good w s → (f s).2.kernel = s.kernel ∧ ∀ a, (f s).1 = .value a → Q w a) →
    (∀ s, (f s).1.Fresh) → L.holds w (fun _ s => f s) Q
  bind : ∀ {w} {α β : Type} {x : Exec α} {f : α → Exec β} {Q : L.World → α → Prop}
    {Q' : L.World → β → Prop}, L.holds w x Q →
    (∀ w', L.le w w' → ∀ a, Q w' a → L.holds w' (f a) Q') → L.holds w (x >>= f) Q'
  framed : ∀ {w} {α β : Type} {before : State → State}
    {after : State → Outcome β × State → Outcome α × State} {x : Exec β}, L.KeepsAt w x →
    Transparent before after → L.KeepsAt w (framed before after x)
  asCall : ∀ {w} {x : Exec Value}, L.KeepsAt w x → ∀ name, L.KeepsAt w (asCall name x)
  handle : ∀ {w} {α : Type} {x : Exec α} {take : Signal → Option (Exec α)}, L.KeepsAt w x →
    (∀ e y, take (.error e) = some y → e.isCatchable = true) →
    (∀ w', L.le w w' → ∀ g y, take g = some y → L.KeepsAt w' y) → L.KeepsAt w (handle x take)

/-- The steps that have rules of their own. -/
structure StepLaws : Prop where
  fuel : L.Keeps fuel
  enterNode : L.Keeps enterNode
  entering : ∀ {ps args}, L.enters ps args → L.Keeps (entering ps args)
  mark : L.Keeps (modifySession fun s => { s with cancellation := s.cancellation.mark true })
  newObject : ∀ {w} {cls : ClassDef} (around : Nat), L.cls w cls →
    L.KeepsAt w (make fun h => h.newObject cls around)
  newCoroutine : ∀ {w} {r : Routine} {body : Node} {args : List Value} (origin : Nat),
    L.routine w r args.length → r.body = .coroutine body →
    L.KeepsAt w (newCoroutine r.name r.params body args origin)
  restart : ∀ i, L.Keeps (make fun h => let (j, h) := h.restart i; (Value.coroutine j, h))
  /-- A coroutine runs its body, where this ends as it should. -/
  resumed : ∀ {w} (i : Nat), (∀ w', L.le w w' → ∀ (c : Coroutine) (frames : List ResumeFrame),
      L.code w' c.body → L.KeepsAt w' (withResume frames (withFrame .barrier (eval c.body c.scope)))) →
    L.KeepsAt w (beginCoroutine i >>= runCoroutine i)
  /-- Evaluations make callables of code, and none of functions. -/
  newCallable : ∀ {w} {k : Callable}, (∀ f, k ≠ .function f) → L.Knows w k →
    L.KeepsAt w (newCallable k)
  addFunction : ∀ {w d}, L.code w (.functionDef d) →
    L.KeepsAt w (modifySession fun s => s.addFunction (.routine (.ofDecl d)))
  defineClass : ∀ {w d}, L.code w (.classDef d) → L.KeepsAt w (do
    let s ← ofExcept (← session fun s => s.defineClass d)
    modifySession fun _ => s)
  /-- Code that is read while an evaluation proceeds is known from then on. -/
  reserve : ∀ (e : Node) (w : L.World), L.holds w (fun _ s =>
    (.value (e.numbered s.sites.next).1, s.withSites (s.sites.reserve (e.numbered s.sites.next).2)))
    L.code
  resolveCall : ∀ {w site name args}, L.code w (.call site name args) →
    L.holds w (resolveCall site name args.length) fun w' p => L.function w' p.2 args.length
  throwing : ∀ v, L.Keeps (throwing v)
  /-- The failure for which an exception is made is raised again where there is no class of exceptions. -/
  classForFailure : ∀ e w, L.holds w (classForFailure e) L.cls

/-- A logic that has the rules. -/
structure Lawful : Prop extends L.WorldLaws, L.CodeLaws, L.StateLaws, L.Rules, L.StepLaws

/-- Nothing is asked of the code that runs, except of the functions that are called. -/
structure Lenient : Prop where
  le : ∀ w w', L.le w w'
  code : ∀ w e, L.code w e
  cls : ∀ w c, L.cls w c
  routine : ∀ w r n, L.routine w r n
  enters : ∀ ps args, L.enters ps args

namespace Lenient

variable {L} (h : L.Lenient)
include h

theorem worldLaws (hfunction : ∀ w w' f n, L.function w f n → L.function w' f n) : L.WorldLaws where
  le_refl w := h.le w w
  le_trans _ _ := h.le _ _
  code_mono _ _ := h.code _ _
  cls_mono _ _ := h.cls _ _
  routine_mono _ _ := h.routine _ _ _
  function_mono _ := hfunction _ _ _ _

theorem codeLaws : L.CodeLaws where
  part _ _ := h.code _ _
  lambda _ := h.code _ _
  default _ _ _ := h.code _ _
  method _ _ := h.routine _ _ _
  constructor _ _ := ⟨h.enters _ _, h.code _ _⟩
  body _ _ := h.code _ _
  routine _ := h.routine _ _ _
  constructed _ := ⟨h.cls _ _, fun _ _ => ⟨h.enters _ _, h.code _ _⟩⟩
  entersRoutine _ _ := h.enters _ _
  entersLambda _ := h.enters _ _

theorem stateLaws
    (hcallable : ∀ w s, L.good w s → ∀ i f, s.heap.callable i = .function f → ∀ n, L.function w f n)
    (hcallee : ∀ w s, L.good w s → ∀ slot f, s.session.catalog.get? slot = some f → ∀ n, L.function w f n) :
    L.StateLaws where
  classOf _ _ := h.cls _ _
  callable {w s} hs i := by
    cases hk : s.heap.callable i with
    | function f => exact fun n _ => hcallable w s hs i f hk n
    | lambda _ _ _ | deferred _ _ => exact h.code _ _
  coroutine _ _ := ⟨h.code _ _, h.enters _ _⟩
  findClass _ _ := h.cls _ _
  callee hs hf := hcallee _ _ hs _ _ (Catalog.get?_of_callee? hf) _

end Lenient

variable {L} {w : L.World} (K : L.Lawful) {x : Exec α} {f : α → Exec β}
variable {Q : L.World → α → Prop} {Q' : L.World → β → Prop}

/-- What is known of the code of a callable stays known. -/
theorem Knows.mono (K : L.Lawful) {w' : L.World} (hw : L.le w w') {k : Callable}
    (hk : L.Knows w k) : L.Knows w' k := by
  cases k with
  | function f => exact fun n hn => K.function_mono hw (hk n hn)
  | lambda _ _ _ | deferred _ _ => exact K.code_mono hw hk

include K

namespace Lawful

/-! ## Derived rules -/

/-- After an evaluation that ends as it should in every world. -/
theorem next (hx : L.Keeps x) (hf : ∀ w', L.le w w' → ∀ a, L.holds w' (f a) Q') :
    L.holds w (x >>= f) Q' :=
  K.bind (hx w) fun w' hw a _ => hf w' hw a

/-- Before an evaluation that ends as it should in every world. -/
theorem last (hx : L.KeepsAt w x) (hf : ∀ a, L.Keeps (f a)) : L.KeepsAt w (x >>= f) :=
  K.bind hx fun w' _ a _ => hf a w'

theorem seq (hx : L.Keeps x) (hf : ∀ a, L.Keeps (f a)) : L.Keeps (x >>= f) :=
  fun w => K.last (hx w) hf

theorem give {a : α} (ha : Q w a) : L.holds w (pure a) Q :=
  K.step (fun s => (.value a, s)) (fun _ _ => ⟨rfl, fun _ hb => Outcome.value.inj hb ▸ ha⟩)
    fun _ => trivial

theorem pure (a : α) : L.Keeps (pure a) := fun _ => K.give trivial

theorem raise {g : Signal} (hg : (Outcome.signal g : Outcome α).Fresh) (w : L.World) :
    L.holds w (raise g) Q :=
  K.step (fun s => (.signal g, s)) (fun _ _ => ⟨rfl, fun _ h => by cases h⟩) fun _ => hg

theorem halt (k : Halt) (w : L.World) : L.holds w (halt k) Q :=
  K.step (fun s => (.halted k, s)) (fun _ _ => ⟨rfl, fun _ h => by cases h⟩) fun _ => trivial

/-- A failure that is raised here is not that a call was refused. -/
theorem fail {cause : ErrorCause} (hcause : cause.isRefusal = false) (w : L.World) : L.holds w (fail cause) Q :=
  K.raise (g := .error (.of cause)) (EvalError.Fresh.of hcause) w

/-- Fail with a note. -/
theorem failNoted {cause : ErrorCause} (hcause : cause.isRefusal = false) (note : String) (w : L.World) :
    L.holds w (Exec.raise (.error ((EvalError.of cause).withNote note))) Q :=
  K.raise (g := .error _) ((EvalError.Fresh.of hcause).withNote note) w

theorem ofExcept {r : Except EvalError α} (hr : FailsWith EvalError.Fresh r) : L.Keeps (ofExcept r) := by
  cases r with
  | ok a => exact K.pure a
  | error e => exact K.raise (hr e rfl)

theorem ofChecked {r : Checked α} (hr : FailsWith Fault.Fresh r) : L.Keeps (ofChecked r) := by
  rcases r with (e | k) | a
  · exact K.raise (hr (.error e) rfl)
  · exact K.halt k
  · exact K.pure a

/-! ### Reading and writing -/

theorem gets {f : State → α} (h : ∀ s, L.good w s → Q w (f s)) : L.holds w (gets f) Q :=
  K.step (fun s => (.value (f s), s)) (fun s hs => ⟨rfl, fun _ ha => Outcome.value.inj ha ▸ h s hs⟩)
    fun _ => trivial

theorem heap (f : Heap → α) : L.Keeps (heap f) := fun _ => K.gets fun _ _ => trivial

theorem session (f : Session → α) : L.Keeps (session f) := fun _ => K.gets fun _ _ => trivial

/-- After reading from the heap what is of a kind whatever the heap. -/
theorem read {f : Heap → α} {P : α → Prop} {g : α → Exec β} (hf : ∀ h, P (f h))
    (hg : ∀ a, P a → L.Keeps (g a)) : L.Keeps (Exec.heap f >>= g) :=
  fun w => K.bind (K.gets fun s _ => hf s.heap : L.holds w (Exec.heap f) fun _ a => P a)
    fun w' _ a ha => hg a ha w'

theorem modifyHeap {f : Heap → Heap} (h : ∀ s : State, (s.withHeap (f s.heap)).kernel = s.kernel) :
    L.Keeps (modifyHeap f) :=
  fun _ => K.step (fun s => (.value (), s.withHeap (f s.heap))) (fun s _ => ⟨h s, fun _ _ => trivial⟩)
    fun _ => trivial

theorem modifySession {f : Session → Session}
    (h : ∀ s : State, (s.withSession (f s.session)).kernel = s.kernel) : L.Keeps (modifySession f) :=
  fun _ => K.step (fun s => (.value (), s.withSession (f s.session)))
    (fun s _ => ⟨h s, fun _ _ => trivial⟩) fun _ => trivial

theorem make {f : Heap → α × Heap} (h : ∀ s : State, (s.withHeap (f s.heap).2).kernel = s.kernel) :
    L.Keeps (Exec.make f) :=
  fun _ => K.step (fun s => (.value (f s.heap).1, s.withHeap (f s.heap).2))
    (fun s _ => ⟨h s, fun _ _ => trivial⟩) fun _ => trivial

/-- What is made in the stores alone leaves the rest as it is. -/
theorem makes {f : Heap → α × Heap} (hf : Heap.Makes f) : L.Keeps (Exec.make f) := by
  refine K.make fun s => ?_
  obtain ⟨a, st, _, heq, _⟩ := hf (.refl s.heap)
  rw [heq]
  rfl

/-- A step that is put together from others, and asks no evaluator. -/
theorem alone (hx : ∀ ev ev' s, x ev s = x ev' s)
    (h : ∀ ev s, L.good w s → (x ev s).2.kernel = s.kernel ∧ ∀ a, (x ev s).1 = .value a → Q w a)
    (hfresh : ∀ ev s, (x ev s).1.Fresh) : L.holds w x Q := by
  -- any evaluator will do
  let any : Evaluator := .untraced 0 fun _ _ s => (.halted .outOfFuel, s)
  have heq : x = fun _ s => x any s := funext fun ev => funext fun s => hx ev any s
  rw [heq]
  exact K.step (x any) (h any) (hfresh any)

theorem makeChecked {f : Heap → Checked (α × Heap)} (hf : Heap.MakesChecked f)
    (hfresh : ∀ h, FailsWith Fault.Fresh (f h)) : L.Keeps (Exec.makeChecked f) := by
  intro w
  refine K.alone (fun ev ev' s => by rw [makeChecked_apply, makeChecked_apply]) (fun ev s _ => ?_)
    fun ev s => ?_
  · refine ⟨?_, fun _ _ => trivial⟩
    rw [makeChecked_apply]
    rcases hf (.refl s.heap) with ⟨e, heq, _⟩ | ⟨a, st, _, heq, _⟩
    · rw [heq]
      cases e <;> rfl
    · rw [heq]
      rfl
  · rw [makeChecked_apply]
    have hheap := hfresh s.heap
    generalize f s.heap = r at hheap
    rcases r with (e | _) | _
    · exact hheap _ rfl
    · trivial
    · trivial

theorem mapM {γ : Type} {g : γ → Exec α} {items : List γ} (h : ∀ a ∈ items, L.Keeps (g a)) :
    L.Keeps (items.mapM g) := by
  induction items with
  | nil => exact K.pure []
  | cons a items ih =>
    rw [List.mapM_cons]
    refine K.seq (h a List.mem_cons_self) fun b => ?_
    exact K.seq (ih fun c hc => h c (List.mem_cons_of_mem a hc)) fun bs => K.pure (b :: bs)

/-! ### Boundaries -/

theorem mapOutcome {f : Outcome α → Outcome β} (hx : L.KeepsAt w x) (hf : Outcome.Handing f) :
    L.KeepsAt w (mapOutcome f x) := by
  have htransparent : Transparent id fun _ (r : Outcome α × State) => (f r.1, r.2) :=
    .of_handing hf (fun _ => rfl) (fun _ _ => rfl) fun _ _ => rfl
  exact K.framed hx htransparent

theorem asNative (hx : L.KeepsAt w x) : L.KeepsAt w (asNative x) := K.mapOutcome hx handing_hostFailed

theorem settle {x : Exec Value} (hx : L.KeepsAt w x) : L.KeepsAt w (settle x) :=
  K.mapOutcome hx handing_settled

theorem withResume (hx : L.KeepsAt w x) (frames : List ResumeFrame) :
    L.KeepsAt w (withResume frames x) := by
  have htransparent : Transparent (·.withResume frames) fun s (r : Outcome α × State) =>
      (r.1, r.2.withResume s.session.resume) :=
    .of_handing handing_id (fun _ => rfl) (fun _ _ => rfl) fun _ _ => rfl
  exact K.framed hx htransparent

omit K in
theorem kernel_leaveFrame (s : State) : (leaveFrame s).kernel = s.kernel := by
  unfold leaveFrame Session.popFrame Session.leave
  split
  · split <;> rfl
  · rfl

theorem withFrame (hx : L.KeepsAt w x) (frame : Frame) : L.KeepsAt w (withFrame frame x) := by
  have htransparent : Transparent (fun s => s.withFrames (frame :: s.session.frames))
      fun _ (r : Outcome α × State) => (r.1, leaveFrame r.2) :=
    .of_handing handing_id (fun _ => rfl) (fun _ r => kernel_leaveFrame r.2) fun _ _ => rfl
  exact K.framed hx htransparent

theorem holding (hx : L.KeepsAt w x) (container : Value) : L.KeepsAt w (holding container x) := by
  have htransparent : Transparent (fun s => s.withHeld (container :: s.held))
      fun s (r : Outcome α × State) => (r.1, r.2.withHeld s.held) :=
    .of_handing handing_id (fun _ => rfl) (fun _ _ => rfl) fun _ _ => rfl
  exact K.framed hx htransparent

end Lawful
end Logic
end TreeScript
