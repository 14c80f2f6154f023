import TreeScript.Eval.Template
import TreeScript.Proofs.Simulation.Alike
import TreeScript.Proofs.Simulation.Basic
import TreeScript.Proofs.Typing.Conversions

/-
# Simulations that follow the evaluator

What the constructs of the language do to a state comes down to a few dozen operations: making a
scope, binding a name, entering a body, taking a frame off the way back.  A simulation is `Lawful`
when it is kept by each of them; the files beside this one conclude, construct by construct, that
evaluations of the same node end alike.

The laws of the boundaries (`call`, `barrier`, `callScope`, `aside`, `resumed`) are about evaluations,
since what they do to a state before and after belongs together; all other laws are about states.
-/

namespace TreeScript

open Exec

/-- The nodes inside a node that run in the same body. -/
def Node.parts : Node → List Node
  | literal _ | template _ | var _ | this | lambda .. | delete _ | continueLoop | functionDef _
  | classDef _ => []
  | listLiteral es | block es => es
  | mapLiteral es => es.flatMap fun (k, e) => [k, e]
  | declare _ _ e | breakWith e | returnWith e | yieldWith e => e.toList
  | assign _ e | constObject _ _ e | unary _ e | field e _ | throwValue e => [e]
  | binary _ l r => [l, r]
  | ternary c yes no => [c, yes, no]
  | index e keys => e :: keys
  | indexAssign e keys new => e :: new :: keys
  | fieldAssign e _ new => [e, new]
  | call _ _ args => args
  | methodCall e _ args => e :: args
  | branch arms otherwise => (arms.flatMap fun (c, e) => [c, e]) ++ otherwise.toList
  | whileLoop c body => [c, body]
  | forRange _ _ a b _ body => [a, b, body]
  | forEach _ e body => [e, body]
  | tryCatch body _ handler => [body, handler]

namespace Node

/-- Statements that a `yield` may stand in. -/
def isStatement : Node → Bool
  | block _ | branch .. | whileLoop .. | forRange .. | forEach .. | tryCatch .. => true
  | _ => false

def isYield : Node → Bool
  | yieldWith _ => true
  | _ => false

/-- A node takes a frame off the way back when it is evaluated. -/
def takesFrame (e : Node) : Bool := e.isStatement || e.isYield

def isCall : Node → Bool
  | call .. | methodCall .. => true
  | _ => false

end Node

/-- An expression in a template, as a parser reads it. -/
def Template.Expression (parse : ExpressionParser) (template : String) (e : Node) : Prop :=
  ∃ segments source, segments? template = some segments ∧ .source source ∈ segments ∧
    parse source = .ok e

/-! ## What is held in common -/

/-- Frames of the way back that lead to the same place, in scopes that are related. -/
inductive ResumeFrame.Alike (scope : Nat → Nat → Prop) : ResumeFrame → ResumeFrame → Prop
  | atYield : Alike scope .atYield .atYield
  | inBlock (i : Nat) : Alike scope (.inBlock i) (.inBlock i)
  | inBranch (arm : Option Nat) {c c' : Nat} : scope c c' →
      Alike scope (.inBranch arm c) (.inBranch arm c')
  | inWhile {c c' : Nat} : scope c c' → Alike scope (.inWhile c) (.inWhile c')
  | inRange {c c' : Nat} (current stop : Int64) : scope c c' →
      Alike scope (.inRange c current stop) (.inRange c' current stop)
  | inEach {c c' : Nat} (source : EachSource) : scope c c' →
      Alike scope (.inEach c source) (.inEach c' source)
  | inBody : Alike scope (.inTry none) (.inTry none)
  | inHandler {c c' : Nat} : scope c c' → Alike scope (.inTry (some c)) (.inTry (some c'))

/-- Callables that do the same: functions that may be called, and bodies in scopes that are related. -/
inductive Callable.Alike (allows : Function → Prop) (scope : Nat → Nat → Prop) :
    Callable → Callable → Prop
  | function {f : Function} : allows f → Alike allows scope (.function f) (.function f)
  | lambda (params : List Param) (body : Node) {c c' : Nat} : scope c c' →
      Alike allows scope (.lambda params body c) (.lambda params body c')
  | deferred (expr : Node) {c c' : Nat} : scope c c' →
      Alike allows scope (.deferred expr c) (.deferred expr c')

/-- Frames lead to the same place in any relation of scopes that says less. -/
theorem ResumeFrame.Alike.mono {scope scope' : Nat → Nat → Prop}
    (h : ∀ {c c'}, scope c c' → scope' c c') {f f' : ResumeFrame} (hf : Alike scope f f') :
    Alike scope' f f' := by
  cases hf with
  | atYield => exact .atYield
  | inBlock i => exact .inBlock i
  | inBranch arm hc => exact .inBranch arm (h hc)
  | inWhile hc => exact .inWhile (h hc)
  | inRange current stop hc => exact .inRange current stop (h hc)
  | inEach source hc => exact .inEach source (h hc)
  | inBody => exact .inBody
  | inHandler hc => exact .inHandler (h hc)

theorem Callable.Alike.mono {allows allows' : Function → Prop} {scope scope' : Nat → Nat → Prop}
    (hallows : ∀ {f}, allows f → allows' f) (h : ∀ {c c'}, scope c c' → scope' c c') {k k' : Callable}
    (hk : Alike allows scope k k') : Alike allows' scope' k k' := by
  cases hk with
  | function hf => exact .function (hallows hf)
  | lambda params body hc => exact .lambda params body (h hc)
  | deferred expr hc => exact .deferred expr (h hc)

namespace Simulation

variable (S : Simulation)

/-- Frames of the way back that lead to the same place. -/
abbrev SameFrame (w : S.World) : ResumeFrame → ResumeFrame → Prop := ResumeFrame.Alike (S.scope w)

/-- The nodes that a function evaluates in the body of its caller fit there. -/
def Allows (w : S.World) (f : Function) : Prop :=
  ∀ r node, f = .routine r → r.body = .native (.evaluate node) → S.fits w node

/-- The body which runs may evaluate a node of a kind. -/
def Permits (w : S.World) (kind : Node → Bool) : Prop := ∃ e, S.fits w e ∧ kind e = true

/-- Callables that do the same. -/
abbrev SameCallable (w : S.World) : Callable → Callable → Prop :=
  Callable.Alike (S.Allows w) (S.pinned w)

/-- Arguments may be bound to parameters. -/
def ArgsSuit (w : S.World) (ps : List Param) (args : List Value) : Prop :=
  ∀ p ∈ ps.zip args, S.suits w p.1.type p.2

/-- An instance is known. -/
def Known (w : S.World) (i : Nat) : Prop := ∃ cls, S.suits w (.object cls) (.object i)

/-- The evaluators that the constructs call agree on all nodes that may be evaluated, and trace
nothing. -/
structure Ready (ev ev' : Evaluator) : Prop where
  fuel : ev.fuel = ev'.fuel
  trace : ∀ ps args s, ev.trace ps args s = (.value (), s)
  trace' : ∀ ps args s, ev'.trace ps args s = (.value (), s)
  eval : ∀ {w e c c'}, S.fits w e → S.scope w c c' → S.Agrees ev ev' w (eval e c) (eval e c')

/-! ## The laws -/

/-- What is known of the nodes that may be evaluated. -/
structure NodeLaws : Prop where
  fits_part : ∀ {w e p}, S.fits w e → p ∈ e.parts → S.fits w p
  enters_fits : ∀ {w w₁} (e), S.enters w w₁ → S.fits w₁ e
  enters_pinned : ∀ {w w₁ c c'}, S.enters w w₁ → S.pinned w c c' → S.pinned w₁ c c'

/-- The two sides hold the same values. -/
structure ValueLaws : Prop where
  alike : ∀ {w s s'}, S.rel w s s' → s.heap.Alike s'.heap
  withStores : ∀ {w s s' st}, S.rel w s s' → s.heap.Grows st →
    S.rel w (s.withHeap (s.heap.withStores st)) (s'.withHeap (s'.heap.withStores st))
  setValue : ∀ {w s s' i ty v}, S.rel w s s' → S.typed w i ty → S.writable w i → S.suits w ty v →
    S.rel w (s.withHeap (s.heap.setValue i v)) (s'.withHeap (s'.heap.setValue i v))
  held : ∀ {w s s'}, S.rel w s s' → s.held = s'.held
  withHeld : ∀ {w s s'} (held), S.rel w s s' → S.rel w (s.withHeld held) (s'.withHeld held)

/-- All that a heap shows of types is known. -/
structure Learnt (w : S.World) (h : Heap) : Prop where
  suits : ∀ {ty v}, h.suits ty v = true → S.suits w ty v
  typed : ∀ {c x i}, h.lookup c x = some i → ∃ ty, S.typed w i ty
  typedLocal : ∀ {c x i}, h.lookupLocal c x = some i → ∃ ty, S.typed w i ty
  args : ∀ i, S.ArgsSuit w (h.coroutine i).params (h.coroutine i).args

/-- What is known of types. -/
structure TypingLaws : Prop where
  suits_mono : ∀ {w w' ty v}, S.le w w' → S.suits w ty v → S.suits w' ty v
  typed_mono : ∀ {w w' i ty}, S.le w w' → S.typed w i ty → S.typed w' i ty
  learn : ∀ {w s s'}, S.rel w s s' → ∃ w', S.le w w' ∧ S.rel w' s s' ∧ S.Learnt w' s.heap
  suits_any : ∀ w v, S.suits w .any v
  suits_this : ∀ {w s s' cls i}, S.rel w s s' → S.suits w (.object cls) (.object i) →
    S.suits w (.object (s.heap.classOf i).name) (.object i)
  typed_slot : ∀ {w s s' i ty}, S.rel w s s' → S.typed w i ty → S.typed w i (s.heap.slot i).type
  writable_slot : ∀ {w s s' i ty}, S.rel w s s' → S.typed w i ty →
    (s.heap.slot i).isMutable = true → S.writable w i

/-- Scopes in relation bind the same names to the same slots. -/
structure ScopeLaws : Prop where
  lookup : ∀ {w s s' c c'} (x), S.rel w s s' → S.scope w c c' →
    s.heap.lookup c x = s'.heap.lookup c' x
  lookupLocal : ∀ {w s s' c c'} (x), S.rel w s s' → S.scope w c c' →
    s.heap.lookupLocal c x = s'.heap.lookupLocal c' x
  newScope : ∀ {w s s' c c'}, S.rel w s s' → S.scope w c c' →
    ∃ w', S.le w w' ∧ S.scope w' s.heap.scopes.size s'.heap.scopes.size ∧
      (S.pinned w c c' → S.pinned w' s.heap.scopes.size s'.heap.scopes.size) ∧
      S.rel w' (s.withHeap (s.heap.newScope c).2) (s'.withHeap (s'.heap.newScope c').2)
  declareSlot : ∀ {w s s' c c'} (x) {slot : Slot}, S.rel w s s' → S.scope w c c' →
    S.suits w slot.type slot.value →
    S.rel w (s.withHeap (s.heap.declareSlot c x slot)) (s'.withHeap (s'.heap.declareSlot c' x slot))
  unbind : ∀ {w s s' c c'} (x), S.rel w s s' → S.scope w c c' →
    S.rel w (s.withHeap (s.heap.unbind c x).2) (s'.withHeap (s'.heap.unbind c' x).2)
  root : ∀ {w s s'}, S.rel w s s' → S.pinned w s.session.root s'.session.root
  retain : ∀ {w s s'}, S.rel w s s' →
    ∃ w', S.le w w' ∧ (∀ c c', S.scope w c c' → S.pinned w' c c') ∧
      S.rel w' (s.withSession s.session.retainFrame) (s'.withSession s'.session.retainFrame)
  release : ∀ {w s s'}, S.rel w s s' →
    ∃ w', S.unwound w w' ∧
      S.rel w' (s.withSession s.session.releaseFrame) (s'.withSession s'.session.releaseFrame)

/-- What holds scopes holds scopes in relation. -/
structure StorageLaws : Prop where
  fields : ∀ {w s s'} (i), S.rel w s s' →
    S.pinned w (s.heap.object i).fields (s'.heap.object i).fields
  addObject : ∀ {w s s' c c'} (cls), S.rel w s s' → S.pinned w c c' →
    S.rel w (s.withHeap { s.heap with objects := s.heap.objects.push ⟨cls, c⟩ })
      (s'.withHeap { s'.heap with objects := s'.heap.objects.push ⟨cls, c'⟩ })
  callable : ∀ {w s s'} (i), S.rel w s s' → S.Permits w Node.isCall →
    S.SameCallable w (s.heap.callable i) (s'.heap.callable i)
  /-- Evaluations make callables of code, and none of functions. -/
  addCallable : ∀ {w s s' k k'}, S.rel w s s' → S.SameCallable w k k' → (∀ f, k ≠ .function f) →
    S.rel w (s.withHeap (s.heap.newCallable k).2) (s'.withHeap (s'.heap.newCallable k').2)
  addCoroutine : ∀ {w s s' o o' c c' params args} (name body), S.rel w s s' → S.pinned w o o' →
    S.pinned w c c' → S.ArgsSuit w params args →
    S.rel w
      (s.withHeap { s.heap with
        coroutines := s.heap.coroutines.push ⟨name, params, args, body, o, c, .created, []⟩ })
      (s'.withHeap { s'.heap with
        coroutines := s'.heap.coroutines.push ⟨name, params, args, body, o', c', .created, []⟩ })
  /-- What a coroutine is started from. -/
  start : ∀ {w s s'} (i), S.rel w s s' →
    (s.heap.coroutine i).params = (s'.heap.coroutine i).params ∧
    (s.heap.coroutine i).args = (s'.heap.coroutine i).args ∧
    (s.heap.coroutine i).body = (s'.heap.coroutine i).body ∧
    S.pinned w (s.heap.coroutine i).origin (s'.heap.coroutine i).origin

/-- The two sides know the same functions and classes. -/
structure CatalogLaws : Prop where
  id : ∀ {w s s'}, S.rel w s s' → s.session.id = s'.session.id
  catalog : ∀ {w s s'}, S.rel w s s' → s.session.catalog = s'.session.catalog
  allows : ∀ {w s s' slot f}, S.rel w s s' → S.Permits w Node.isCall →
    s.session.catalog.get? slot = some f → S.Allows w f
  addFunction : ∀ {w s s' f}, S.rel w s s' → f.isNative = false →
    S.rel w (s.withSession (s.session.addFunction f)) (s'.withSession (s'.session.addFunction f))
  classes : ∀ {w s s'}, S.rel w s s' → s.session.classes = s'.session.classes
  withClasses : ∀ {w s s'} (classes), S.rel w s s' →
    S.rel w (s.withSession { s.session with classes := classes })
      (s'.withSession { s'.session with classes := classes })
  sites : ∀ {w s s'}, S.rel w s s' → s.sites = s'.sites
  reserve : ∀ {w s s'} (n), S.rel w s s' →
    S.rel w (s.withSites (s.sites.reserve n)) (s'.withSites (s'.sites.reserve n))
  /-- A site remembers what the catalog finds if it remembers nothing. -/
  remember : ∀ {w s s'} (site slot), S.rel w s s' →
    ((s.sites.get? site s.session.id).bind s.session.catalog.get?) = none →
    S.rel w (s.withSites (s.sites.set site s.session.id slot))
      (s'.withSites (s'.sites.set site s'.session.id slot))
  parser : ∀ {w s s'}, S.rel w s s' → s.session.parser? = s'.session.parser?
  parsed : ∀ {w s s' parse template e} (n), S.rel w s s' → S.fits w (.template template) →
    s.session.parser? = some parse → Template.Expression parse template e →
    S.fits w (e.numbered n).1

/-- The two sides have the same live calls, and print, count and are marked alike. -/
structure SessionLaws : Prop where
  withOutput : ∀ {w s s'} (f : Output → Output), S.rel w s s' →
    S.rel w (s.withOutput (f s.session.output)) (s'.withOutput (f s'.session.output))
  withCancellation : ∀ {w s s'} (f : Cancellation → Cancellation), S.rel w s s' →
    S.rel w (s.withCancellation (f s.session.cancellation))
      (s'.withCancellation (f s'.session.cancellation))
  countFunctionCall : ∀ {w s s'}, S.rel w s s' →
    S.rel w (s.withMeter s.session.meter.countFunctionCall)
      (s'.withMeter s'.session.meter.countFunctionCall)
  countMethodCall : ∀ {w s s'}, S.rel w s s' →
    S.rel w (s.withMeter s.session.meter.countMethodCall)
      (s'.withMeter s'.session.meter.countMethodCall)
  enterNode : ∀ {w} (ev ev'), S.Agrees ev ev' w enterNode enterNode
  resetMeter : ∀ {w s s'}, S.rel w s s' →
    S.rel w (s.withMeter s.session.meter.reset) (s'.withMeter s'.session.meter.reset)

/-- The two sides are on their ways back to the same `yield`. -/
structure WayLaws : Prop where
  nextFrame : ∀ {w s s'}, S.rel w s s' → S.Permits w Node.takesFrame →
    (s.session.resume = [] ∧ s'.session.resume = []) ∨
      ∃ f f' rest rest' w', s.session.resume = f :: rest ∧ s'.session.resume = f' :: rest' ∧
        S.le w w' ∧ S.SameFrame w' f f' ∧ S.rel w' (s.withResume rest) (s'.withResume rest')
  /-- A way back may be given up before a top-level evaluation. -/
  forget : ∀ {w s s'}, S.rel w s s' → (∀ e, S.fits w e) →
    ∃ w', S.le w w' ∧ S.rel w' (s.withResume []) (s'.withResume [])
  way_yield : ∀ {w e}, S.fits w (.yieldWith e) → S.way w [.atYield] [.atYield]
  way_cons : ∀ {w f f' fs fs'}, S.Permits w Node.isStatement → S.SameFrame w f f' → f ≠ .atYield →
    S.way w fs fs' → S.way w (f :: fs) (f' :: fs')

/-- What a body may do in a world, it may do in another, which is that of a call it makes. -/
structure Inside (w w₁ : S.World) : Prop where
  scope : ∀ {c c'}, S.scope w c c' → S.scope w₁ c c'
  fits : ∀ {e}, S.fits w e → S.fits w₁ e
  enters : ∀ {w₂}, S.enters w₁ w₂ → S.enters w w₂

/-- What runs inside a boundary may be looked at by itself. -/
structure BoundaryLaws : Prop where
  /-- A live call of a name. -/
  call : ∀ {ev ev' w} (name) {x y : Exec Value}, (∀ w₁, S.Inside w w₁ → S.Agrees ev ev' w₁ x y) →
    S.Agrees ev ev' w (asCall name x) (asCall name y)
  /-- A body that owns no pooled scope. -/
  barrier : ∀ {ev ev' w} {x y : Exec Value},
    (∀ w₁, S.enters w w₁ → S.closed w₁ → S.Agrees ev ev' w₁ x y) →
    S.Agrees ev ev' w (settle (withResume [] (withFrame .barrier x)))
      (settle (withResume [] (withFrame .barrier y)))
  /-- A body in a scope of its own. -/
  callScope : ∀ {ev ev' w} (function) {x y : Nat → Exec Value}, S.Permits w Node.isCall →
    (∀ w₁ c c', S.enters w w₁ → S.scope w₁ c c' → S.Agrees ev ev' w₁ (x c) (y c')) →
    S.Agrees ev ev' w
      (acquireScope function >>= fun c => settle (withFrame (.pooled function c false false) (x c)))
      (acquireScope function >>= fun c => settle (withFrame (.pooled function c false false) (y c)))
  /-- Native code that runs for a body. -/
  aside : ∀ {ev ev' w} {x y : Exec Value}, S.Permits w Node.isCall →
    (∀ w₁, (∀ c c', S.scope w c c' → S.scope w₁ c c') → (∀ e, S.fits w e → S.fits w₁ e) →
      S.Agrees ev ev' w₁ x y) →
    S.Agrees ev ev' w (withResume [] x) (withResume [] y)
  /-- The body of a coroutine, up to its next `yield`. -/
  resumed : ∀ {ev ev' w} {s s' : State} (i) {frames frames' running running'}, S.rel w s s' →
    (s.heap.coroutine i).begin? = .ok (some (frames, running)) →
    (s'.heap.coroutine i).begin? = .ok (some (frames', running')) →
    (∀ w₁ c c' e, S.enters w w₁ → S.closed w₁ → S.scope w₁ c c' →
      S.Agrees ev ev' w₁ (eval e c) (eval e c')) →
    S.Ends w (fun _ a b => a = b)
      (untilYield i (withResume frames
          (withFrame .barrier (eval (s.heap.coroutine i).body (s.heap.coroutine i).scope))) ev
        (s.withHeap (s.heap.setCoroutine i running)))
      (untilYield i (withResume frames'
          (withFrame .barrier (eval (s'.heap.coroutine i).body (s'.heap.coroutine i).scope))) ev'
        (s'.withHeap (s'.heap.setCoroutine i running')))

/-- A simulation that is kept by all operations on states. -/
structure Lawful : Prop extends S.Ordered, S.NodeLaws, S.ValueLaws, S.TypingLaws, S.ScopeLaws,
  S.StorageLaws, S.CatalogLaws, S.SessionLaws, S.WayLaws, S.BoundaryLaws

variable {S} {w w' : S.World} {kind : Node → Bool}

theorem Permits.imp (h : S.Permits w kind) (hfits : ∀ e, S.fits w e → S.fits w' e) :
    S.Permits w' kind := by
  obtain ⟨e, he, hkind⟩ := h
  exact ⟨e, hfits e he, hkind⟩

/-- What a body may evaluate, it may go on evaluating. -/
theorem Permits.mono (O : S.Ordered) (h : S.Permits w kind) (hw : S.unwound w w') :
    S.Permits w' kind :=
  h.imp fun _ he => O.fits_mono hw he

/-- Statements take frames. -/
theorem Permits.takesFrame (h : S.Permits w Node.isStatement) : S.Permits w Node.takesFrame := by
  obtain ⟨e, he, hkind⟩ := h
  exact ⟨e, he, by rw [Node.takesFrame, hkind, Bool.true_or]⟩

/-- Arguments stay suited. -/
theorem ArgsSuit.mono (T : S.TypingLaws) {ps : List Param} {args : List Value}
    (h : S.ArgsSuit w ps args) (hw : S.le w w') : S.ArgsSuit w' ps args :=
  fun p hp => T.suits_mono hw (h p hp)

/-- An instance stays known. -/
theorem Known.mono (T : S.TypingLaws) {i : Nat} (h : S.Known w i) (hw : S.le w w') :
    S.Known w' i :=
  h.imp fun _ hi => T.suits_mono hw hi

/-- Nothing is to be known of types, where everything is taken to be right. -/
theorem typingLaws_of_all (hle : ∀ w, S.le w w) (hsuits : ∀ w ty v, S.suits w ty v)
    (htyped : ∀ w i ty, S.typed w i ty) (hwritable : ∀ w i, S.writable w i) : S.TypingLaws where
  suits_mono _ _ := hsuits _ _ _
  typed_mono _ _ := htyped _ _ _
  learn {w _ _} hs := ⟨w, hle w, hs, fun _ => hsuits _ _ _, fun _ => ⟨.any, htyped _ _ _⟩,
    fun _ => ⟨.any, htyped _ _ _⟩, fun _ _ _ => hsuits _ _ _⟩
  suits_any w v := hsuits w .any v
  suits_this _ _ := hsuits _ _ _
  typed_slot _ _ := htyped _ _ _
  writable_slot _ _ _ := hwritable _ _

end Simulation
end TreeScript
