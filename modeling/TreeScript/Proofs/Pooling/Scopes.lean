import Mathlib.Data.List.Find
import TreeScript.Proofs.Pooling.World
import TreeScript.Proofs.Scopes

/-
# The scopes of the two sides

A scope of the right side that is not dead binds the names that its image binds, and the scopes around
it have the scopes around its image for their images, whether they are dead or not: the scopes around a
scope never change.  So a name that is looked up from a safe scope leads to the same slot on both
sides, and binding it in one keeps the two sides alike, since no other scope has the same image.
-/

namespace TreeScript
namespace Pooling

/-- The scopes of the right side are those of the left side for which they stand. -/
structure Scopes (w : World) (left right : Array TreeScript.Scope) : Prop where
  size : right.size = w.size
  around : ∀ a < w.size, (right.getD a default).ancestors = w.around a
  known : ∀ a < w.size, ∀ b ∈ w.around a, b < w.size
  image_lt : ∀ a < w.size, w.image a < left.size
  image_around : ∀ a < w.size,
    (left.getD (w.image a) default).ancestors = (w.around a).map w.image
  bindings : ∀ a < w.size, ¬ w.dead a →
    (left.getD (w.image a) default).bindings = (right.getD a default).bindings
  injective : ∀ a < w.size, ∀ b < w.size, ¬ w.dead a → ¬ w.dead b → w.image a = w.image b → a = b

/-- A scope inside a root that the left side may use again. -/
structure Idle (w : World) (left : Array TreeScript.Scope) (root c : Nat) : Prop where
  lt : c < left.size
  unused : ∀ a < w.size, ¬ w.dead a → w.image a ≠ c
  ancestors : (left.getD c default).ancestors = [root]

variable {w w' : World} {left right : Array TreeScript.Scope}

/-! ## Looking up -/

section
variable {h h' : Heap} (S : Scopes w h.scopes h'.scopes) {avoid : Nat → Prop} {c c' : Nat}
include S

/-- The scopes around an image are images. -/
theorem Scopes.chain (hc : w.Safe avoid c c') :
    h.chain c = (w.chain c').map w.image ∧ h'.chain c' = w.chain c' := by
  have hright : (h'.scope c').ancestors = w.around c' := S.around c' hc.lt
  have hleft : (h.scope (w.image c')).ancestors = (w.around c').map w.image :=
    S.image_around c' hc.lt
  rw [hc.image] at hleft
  constructor
  · rw [Heap.chain, hleft, World.chain, List.map_cons, hc.image]
  · rw [Heap.chain, hright, World.chain]

theorem Scopes.lookupLocal_image {a : Nat} (ha : a < w.size) (hlive : ¬ w.dead a) (x : String) :
    h.lookupLocal (w.image a) x = h'.lookupLocal a x := by
  have hbindings : (h.scope (w.image a)).bindings = (h'.scope a).bindings := S.bindings a ha hlive
  rw [Heap.lookupLocal, Heap.lookupLocal, hbindings]

theorem Scopes.lookupLocal (hc : w.Safe avoid c c') (x : String) :
    h.lookupLocal c x = h'.lookupLocal c' x := by
  rw [← hc.image]
  exact S.lookupLocal_image hc.lt hc.not_dead x

theorem Scopes.lookup (hc : w.Safe avoid c c') (x : String) : h.lookup c x = h'.lookup c' x := by
  obtain ⟨hchain, hchain'⟩ := S.chain hc
  rw [Heap.lookup, Heap.lookup, hchain, hchain', List.findSome?_map]
  exact findSome?_congr fun a ha => S.lookupLocal_image (hc.known a ha) (hc.live a ha) x

/-- A name is bound on the two sides in the same one of the scopes around. -/
theorem Scopes.find? (hc : w.Safe avoid c c') (x : String) :
    (h.chain c).find? (fun a => (h.lookupLocal a x).isSome) =
      ((h'.chain c').find? fun a => (h'.lookupLocal a x).isSome).map w.image := by
  obtain ⟨hchain, hchain'⟩ := S.chain hc
  rw [hchain, hchain', List.find?_map]
  refine congrArg (Option.map w.image) (List.find?_congr fun a ha => ?_)
  exact congrArg Option.isSome (S.lookupLocal_image (hc.known a ha) (hc.live a ha) x)

end

/-! ## Binding -/

/-- Change what a scope binds. -/
def rebind (f : Table String Nat → Table String Nat) (s : TreeScript.Scope) : TreeScript.Scope :=
  { s with bindings := f s.bindings }

theorem ancestors_modify (items : Array TreeScript.Scope) (c a : Nat)
    (f : Table String Nat → Table String Nat) :
    ((items.modify c (rebind f)).getD a default).ancestors = (items.getD a default).ancestors := by
  rw [getD_modify]
  split <;> rfl

/-- Binding names in a scope that is not dead, and in its image. -/
theorem Scopes.modify (S : Scopes w left right) {c : Nat} (hc : c < w.size) (hlive : ¬ w.dead c)
    (f : Table String Nat → Table String Nat) :
    Scopes w (left.modify (w.image c) (rebind f)) (right.modify c (rebind f)) where
  size := by
    rw [Array.size_modify]
    exact S.size
  around a ha := (ancestors_modify right c a f).trans (S.around a ha)
  known := S.known
  image_lt a ha := by
    rw [Array.size_modify]
    exact S.image_lt a ha
  image_around a ha := (ancestors_modify left _ _ f).trans (S.image_around a ha)
  bindings a ha hd := by
    have hright : a < right.size := S.size ▸ ha
    have hleft := S.image_lt a ha
    rw [getD_modify, getD_modify]
    by_cases heq : c = a
    · subst heq
      rw [if_pos ⟨rfl, hleft⟩, if_pos ⟨rfl, hright⟩]
      exact congrArg f (S.bindings c ha hd)
    · rw [if_neg fun h => heq (S.injective c hc a ha hlive hd h.1), if_neg fun h => heq h.1]
      exact S.bindings a ha hd
  injective := S.injective

theorem Idle.modify {root d : Nat} (h : Idle w left root d) (c : Nat)
    (f : Table String Nat → Table String Nat) : Idle w (left.modify c (rebind f)) root d where
  lt := by
    rw [Array.size_modify]
    exact h.lt
  unused := h.unused
  ancestors := (ancestors_modify left c d f).trans h.ancestors

/-! ## New scopes -/

/-- The left side takes a scope that stands for no other, and the right side makes a new one. -/
theorem Scopes.push (S : Scopes w left right) {left' : Array TreeScript.Scope} {c : Nat}
    {around : List Nat} (hsize : left.size ≤ left'.size) (hc : c < left'.size)
    (hunused : ∀ a < w.size, ¬ w.dead a → w.image a ≠ c)
    (hancestors : ∀ a < left.size, (left'.getD a default).ancestors = (left.getD a default).ancestors)
    (hbindings : ∀ a < left.size, a ≠ c →
      (left'.getD a default).bindings = (left.getD a default).bindings)
    (hnew : left'.getD c default = ⟨.empty, around.map w.image⟩)
    (haround : ∀ b ∈ around, b < w.size) :
    Scopes (w.push c around) left' (right.push ⟨.empty, around⟩) := by
  have himage : ∀ {l : List Nat}, (∀ b ∈ l, b < w.size) →
      l.map (w.push c around).image = l.map w.image := fun hl =>
    List.map_congr_left fun b hb => if_neg (Nat.ne_of_lt (hl b hb))
  -- what is to be shown of each scope, for the old ones and the new one
  have hcases : ∀ {a : Nat}, a < (w.push c around).size →
      (a < w.size ∧ (w.push c around).image a = w.image a ∧
        (w.push c around).around a = w.around a ∧
        (right.push ⟨.empty, around⟩).getD a default = right.getD a default) ∨
      (a = w.size ∧ (w.push c around).image a = c ∧ (w.push c around).around a = around ∧
        (right.push ⟨.empty, around⟩).getD a default = ⟨.empty, around⟩) := by
    intro a ha
    rcases Nat.lt_succ_iff_lt_or_eq.mp ha with ha | rfl
    · have hne := Nat.ne_of_lt ha
      exact Or.inl ⟨ha, if_neg hne, if_neg hne, getD_push_lt _ _ (S.size ▸ ha)⟩
    · refine Or.inr ⟨rfl, if_pos rfl, if_pos rfl, ?_⟩
      rw [← S.size, getD_push_size]
  have hlive : ∀ {a : Nat}, a < w.size → ¬ (w.push c around).dead a → ¬ w.dead a := fun ha hd h =>
    hd ⟨Nat.ne_of_lt ha, h⟩
  constructor
  case size =>
    rw [Array.size_push, S.size]
    rfl
  case around =>
    intro a ha
    rcases hcases ha with ⟨ha, _, hw, hr⟩ | ⟨_, _, hw, hr⟩
    · rw [hw, hr, S.around a ha]
    · rw [hw, hr]
  case known =>
    intro a ha b hb
    refine Nat.lt_succ_of_lt ?_
    rcases hcases ha with ⟨ha, _, hw, _⟩ | ⟨_, _, hw, _⟩
    · exact S.known a ha b (hw ▸ hb)
    · exact haround b (hw ▸ hb)
  case image_lt =>
    intro a ha
    rcases hcases ha with ⟨ha, hi, _, _⟩ | ⟨_, hi, _, _⟩ <;> rw [hi]
    · exact Nat.lt_of_lt_of_le (S.image_lt a ha) hsize
    · exact hc
  case image_around =>
    intro a ha
    rcases hcases ha with ⟨ha, hi, hw, _⟩ | ⟨_, hi, hw, _⟩ <;> rw [hi, hw]
    · rw [hancestors _ (S.image_lt a ha), S.image_around a ha, himage (S.known a ha)]
    · rw [hnew, himage haround]
  case bindings =>
    intro a ha hd
    rcases hcases ha with ⟨ha, hi, _, hr⟩ | ⟨_, hi, _, hr⟩ <;> rw [hi, hr]
    · have hd := hlive ha hd
      rw [hbindings _ (S.image_lt a ha) (hunused a ha hd), S.bindings a ha hd]
    · rw [hnew]
  case injective =>
    intro a ha b hb hda hdb heq
    rcases hcases ha with ⟨ha, hi, _, _⟩ | ⟨ha, hi, _, _⟩ <;>
      rcases hcases hb with ⟨hb, hj, _, _⟩ | ⟨hb, hj, _, _⟩ <;> rw [hi, hj] at heq
    · exact S.injective a ha b hb (hlive ha hda) (hlive hb hdb) heq
    · exact absurd heq (hunused a ha (hlive ha hda))
    · exact absurd heq.symm (hunused b hb (hlive hb hdb))
    · rw [ha, hb]

/-- Both sides make a new scope. -/
theorem Scopes.pushNew (S : Scopes w left right) {around : List Nat}
    (haround : ∀ b ∈ around, b < w.size) :
    Scopes (w.push left.size around) (left.push ⟨.empty, around.map w.image⟩)
      (right.push ⟨.empty, around⟩) := by
  refine S.push ?_ ?_ ?_ ?_ ?_ (getD_push_size left _) haround
  · rw [Array.size_push]
    exact Nat.le_succ _
  · rw [Array.size_push]
    exact Nat.lt_succ_self _
  · exact fun a ha _ => Nat.ne_of_lt (S.image_lt a ha)
  · exact fun a ha => by rw [getD_push_lt left _ ha]
  · exact fun a ha _ => by rw [getD_push_lt left _ ha]

/-- The left side uses an idle scope again. -/
theorem Scopes.pushIdle (S : Scopes w left right) {root root' c : Nat} (hidle : Idle w left root c)
    (hroot : root' < w.size) (himage : w.image root' = root) :
    Scopes (w.push c [root']) (left.modify c (rebind fun _ => .empty))
      (right.push ⟨.empty, [root']⟩) := by
  refine S.push ?_ ?_ hidle.unused ?_ ?_ ?_ ?_
  · exact Nat.le_of_eq Array.size_modify.symm
  · rw [Array.size_modify]
    exact hidle.lt
  · exact fun a _ => ancestors_modify left c a _
  · intro a _ hne
    rw [getD_modify, if_neg fun h => hne h.1.symm]
  · rw [getD_modify, if_pos ⟨rfl, hidle.lt⟩, rebind, hidle.ancestors, List.map_singleton, himage]
  · intro b hb
    rw [List.mem_singleton.mp hb]
    exact hroot

theorem Idle.push {root d : Nat} (h : Idle w left root d) {left' : Array TreeScript.Scope} {c : Nat}
    (around : List Nat) (hne : c ≠ d) (hsize : left.size ≤ left'.size)
    (hancestors : ∀ a < left.size, (left'.getD a default).ancestors = (left.getD a default).ancestors) :
    Idle (w.push c around) left' root d where
  lt := Nat.lt_of_lt_of_le h.lt hsize
  unused a ha hd := by
    by_cases heq : a = w.size
    · rw [show (w.push c around).image a = c from if_pos heq]
      exact hne
    · rw [show (w.push c around).image a = w.image a from if_neg heq]
      exact h.unused a (Nat.lt_of_le_of_ne (Nat.lt_succ_iff.mp ha) heq) fun hdead => hd ⟨heq, hdead⟩
  ancestors := (hancestors d h.lt).trans h.ancestors

/-! ## Dying scopes -/

/-- Scopes stay alike when more of them are dead. -/
theorem Scopes.bury (S : Scopes w left right) (hsize : w'.size = w.size) (himage : w'.image = w.image)
    (haround : w'.around = w.around) (hdead : ∀ a, w.dead a → w'.dead a) : Scopes w' left right := by
  obtain ⟨size, image, around, dead, frames⟩ := w'
  dsimp only at hsize himage haround hdead
  subst hsize himage haround
  exact ⟨S.size, S.around, S.known, S.image_lt, S.image_around,
    fun a ha hd => S.bindings a ha fun h => hd (hdead a h),
    fun a ha b hb hda hdb => S.injective a ha b hb (fun h => hda (hdead a h)) fun h => hdb (hdead b h)⟩

theorem Idle.bury {root c : Nat} (h : Idle w left root c) (hsize : w'.size = w.size)
    (himage : w'.image = w.image) (hdead : ∀ a, w.dead a → w'.dead a) : Idle w' left root c := by
  refine ⟨h.lt, fun a ha hd => ?_, h.ancestors⟩
  rw [himage]
  exact h.unused a (hsize ▸ ha) fun hdead' => hd (hdead a hdead')

/-- A scope may be used again when what stood for it is dead. -/
theorem Scopes.idle (S : Scopes w left right) (hsize : w'.size = w.size) (himage : w'.image = w.image)
    (hdead : ∀ a, w.dead a → w'.dead a) {root root' a : Nat} (ha : a < w.size) (hlive : ¬ w.dead a)
    (hdies : w'.dead a) (haround : w.around a = [root']) (hroot : w.image root' = root) :
    Idle w' left root (w.image a) := by
  refine ⟨S.image_lt a ha, fun b hb hd heq => ?_, ?_⟩
  · rw [himage] at heq
    have hb' : b < w.size := hsize ▸ hb
    have hba := S.injective b hb' a ha (fun h => hd (hdead b h)) hlive heq
    exact hd (hba ▸ hdies)
  · rw [S.image_around a ha, haround, List.map_singleton, hroot]

end Pooling
end TreeScript
