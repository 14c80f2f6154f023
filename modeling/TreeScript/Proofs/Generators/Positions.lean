import TreeScript.Proofs.Simulation.Lawful

/-
# Where a `yield` stands

A `yield` may stand where a statement stands: in a block, an arm of a branch, the body of a loop, or
the body or handler of a `try`.  A node whose yields all stand so is `Staged`.  The nodes that are
evaluated for a value on the way (conditions, bounds, operands, what templates are read as) are free
of them.

The bodies of lambdas, functions and classes are evaluated in bodies of their own, so what stands in
them does not count.
-/

namespace TreeScript
namespace Node

/-! ## Nodes without a `yield` -/

/-- The second node may be evaluated for the first one in the same body: it is this node, stands in it,
or is what one of the parsers reads in a template. -/
inductive Within (reads : ExpressionParser → Prop) : Node → Node → Prop
  | self (e : Node) : Within reads e e
  | part {e p q : Node} : p ∈ e.parts → Within reads p q → Within reads e q
  | expression {parse : ExpressionParser} {text : String} {e q : Node} (n : Nat) : reads parse →
      Template.Expression parse text e → Within reads (e.numbered n).1 q →
      Within reads (.template text) q

variable {reads : ExpressionParser → Prop} {bars bars' : Node → Bool}

/-- No node that is barred is evaluated for a node in the same body. -/
def Free (reads : ExpressionParser → Prop) (bars : Node → Bool) (e : Node) : Prop :=
  ∀ q, Within reads e q → bars q = false

theorem Free.self {e : Node} (h : e.Free reads bars) : bars e = false := h e (.self e)

theorem Free.part {e p : Node} (h : e.Free reads bars) (hp : p ∈ e.parts) : p.Free reads bars :=
  fun q hq => h q (.part hp hq)

theorem Free.expression {parse : ExpressionParser} {text : String} {e : Node}
    (h : (Node.template text).Free reads bars) (hparse : reads parse)
    (he : Template.Expression parse text e) (n : Nat) : (e.numbered n).1.Free reads bars :=
  fun q hq => h q (.expression n hparse he hq)

/-- A node is free of what is barred if it is not barred itself and its parts are free, unless it is a
template. -/
theorem free_of_parts {e : Node} (hself : bars e = false) (htemplate : ∀ text, e ≠ .template text)
    (hparts : ∀ p ∈ e.parts, p.Free reads bars) : e.Free reads bars := by
  intro q hq
  cases hq with
  | self => exact hself
  | part hp hq => exact hparts _ hp q hq
  | expression n _ _ _ => exact absurd rfl (htemplate _)

/-- A leaf that is not barred is free. -/
theorem free_of_leaf {e : Node} (hself : bars e = false) (hparts : e.parts = [])
    (htemplate : ∀ text, e ≠ .template text) : e.Free reads bars := by
  refine free_of_parts hself htemplate fun p hp => ?_
  rw [hparts] at hp
  cases hp

theorem free_literal (hbars : ∀ l, bars (.literal l) = false) (l : Literal) :
    (Node.literal l).Free reads bars := free_of_leaf (hbars l) rfl nofun

/-- No `yield` is evaluated for a node in the same body. -/
abbrev YieldFree (reads : ExpressionParser → Prop) (e : Node) : Prop := e.Free reads isYield

/-! ## Statements with yields -/

/-- Every `yield` of a node stands where a statement stands. -/
inductive Staged (reads : ExpressionParser → Prop) : Node → Prop
  | yieldFree {e : Node} : e.YieldFree reads → Staged reads e
  | yieldWith {value : Option Node} : (∀ e ∈ value, e.YieldFree reads) → Staged reads (.yieldWith value)
  | block {statements : List Node} : (∀ e ∈ statements, Staged reads e) →
      Staged reads (.block statements)
  | branch {arms : List (Node × Node)} {otherwise : Option Node} :
      (∀ arm ∈ arms, arm.1.YieldFree reads) → (∀ arm ∈ arms, Staged reads arm.2) →
      (∀ e ∈ otherwise, Staged reads e) → Staged reads (.branch arms otherwise)
  | whileLoop {cond body : Node} : cond.YieldFree reads → Staged reads body →
      Staged reads (.whileLoop cond body)
  | forRange {name : String} {type : TypeKind} {start stop : Node} {direction : RangeDirection}
      {body : Node} : start.YieldFree reads → stop.YieldFree reads → Staged reads body →
      Staged reads (.forRange name type start stop direction body)
  | forEach {name : String} {iterable body : Node} : iterable.YieldFree reads → Staged reads body →
      Staged reads (.forEach name iterable body)
  | tryCatch {body : Node} {name : String} {handler : Node} : Staged reads body →
      Staged reads handler → Staged reads (.tryCatch body name handler)

/-- The parts of a statement that a `yield` may stand in. -/
def bodies : Node → List Node
  | block es => es
  | branch arms otherwise => arms.map (·.2) ++ otherwise.toList
  | whileLoop _ body | forRange _ _ _ _ _ body | forEach _ _ body => [body]
  | tryCatch body _ handler => [body, handler]
  | _ => []

/-- The parts of a statement or a `yield` that are evaluated for a value. -/
def conditions : Node → List Node
  | branch arms _ => arms.map (·.1)
  | whileLoop cond _ => [cond]
  | forRange _ _ a b _ _ => [a, b]
  | forEach _ e _ => [e]
  | yieldWith value => value.toList
  | _ => []

theorem mem_parts_of_bodies {e p : Node} (h : p ∈ e.bodies) : p ∈ e.parts := by
  cases e with
  | branch arms otherwise =>
    refine (List.mem_append.mp h).elim (fun h => List.mem_append_left _ ?_) (List.mem_append_right _)
    obtain ⟨arm, harm, rfl⟩ := List.mem_map.mp h
    exact List.mem_flatMap.mpr ⟨arm, harm, by simp⟩
  | _ => simp_all [bodies, parts]

theorem mem_parts_of_conditions {e p : Node} (h : p ∈ e.conditions) : p ∈ e.parts := by
  cases e with
  | branch arms otherwise =>
    obtain ⟨arm, harm, rfl⟩ := List.mem_map.mp h
    exact List.mem_append_left _ (List.mem_flatMap.mpr ⟨arm, harm, by simp⟩)
  | forRange x ty a b direction body => exact List.mem_append_left [body] h
  | _ => simp_all [conditions, parts]

/-! What is known of the parts: a node without a `yield` has none in its parts either. -/

theorem Staged.bodies {e : Node} (h : Staged reads e) : ∀ p ∈ e.bodies, Staged reads p := by
  intro p hp
  cases h with
  | yieldFree h => exact .yieldFree (h.part (mem_parts_of_bodies hp))
  | yieldWith _ => cases hp
  | block h => exact h p hp
  | branch _ hbodies hotherwise =>
    rcases List.mem_append.mp hp with hp | hp
    · obtain ⟨arm, harm, rfl⟩ := List.mem_map.mp hp
      exact hbodies arm harm
    · exact hotherwise p (Option.mem_toList.mp hp)
  | whileLoop _ hbody | forRange _ _ hbody | forEach _ hbody =>
    cases List.mem_singleton.mp hp
    exact hbody
  | tryCatch hbody hhandler =>
    rcases List.mem_cons.mp hp with rfl | hp
    · exact hbody
    · cases List.mem_singleton.mp hp
      exact hhandler

theorem Staged.conditions {e : Node} (h : Staged reads e) : ∀ p ∈ e.conditions, p.YieldFree reads := by
  intro p hp
  cases h with
  | yieldFree h => exact h.part (mem_parts_of_conditions hp)
  | yieldWith h => exact h p (Option.mem_toList.mp hp)
  | branch hconds _ _ =>
    obtain ⟨arm, harm, rfl⟩ := List.mem_map.mp hp
    exact hconds arm harm
  | whileLoop h _ | forEach h _ =>
    cases List.mem_singleton.mp hp
    exact h
  | forRange hstart hstop _ =>
    rcases List.mem_cons.mp hp with rfl | hp
    · exact hstart
    · cases List.mem_singleton.mp hp
      exact hstop
  | block _ | tryCatch _ _ => cases hp

theorem Staged.yieldFree_of_plain {e : Node} (h : Staged reads e) (hplain : e.takesFrame = false) :
    e.YieldFree reads := by
  cases h with
  | yieldFree h => exact h
  | _ => cases hplain

end Node
end TreeScript
