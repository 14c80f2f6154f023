import Mathlib.Data.Fintype.Card
import Mathlib.Data.Fintype.Sum
import Mathlib.Logic.Relation

/-
# Walks that end

A walk goes from a point to all its parts, to their parts, and so on.  It ends (`Ends`) if no path goes
on for ever, and it ends within a depth (`EndsWithin`) if no path is longer than that.

Where the parts of a point are those of a cell in which it lies, and there are finitely many cells, a
path that ends comes by no cell twice.  So a walk that ends does so within as many points as there are
cells, and two more (`Ends.within`).
-/

namespace TreeScript

open Relation

variable {α : Type} (parts : α → List α)

/-- No path from a point goes on for ever. -/
def Ends (a : α) : Prop := Acc (fun c b => c ∈ parts b) a

/-- A path leads from one point to another. -/
abbrev Leads : α → α → Prop := ReflTransGen fun b c => c ∈ parts b

/-- No path from a point has more than a number of points. -/
def EndsWithin : Nat → α → Prop
  | 0, _ => False
  | n + 1, a => ∀ b ∈ parts a, EndsWithin n b

instance decidableEndsWithin : ∀ n a, Decidable (EndsWithin parts n a)
  | 0, _ => inferInstanceAs (Decidable False)
  | n + 1, a =>
    have := decidableEndsWithin n
    inferInstanceAs (Decidable (∀ b ∈ parts a, EndsWithin parts n b))

variable {parts} {a b : α} {n m : Nat}

theorem EndsWithin.ends (h : EndsWithin parts n a) : Ends parts a := by
  induction n generalizing a with
  | zero => exact h.elim
  | succ n ih => exact .intro a fun b hb => ih (h b hb)

/-- What has no parts is at its end. -/
theorem endsWithin_of_nil (h : parts a = []) (n : Nat) : EndsWithin parts (n + 1) a := by
  intro b hb
  rw [h] at hb
  cases hb

theorem EndsWithin.mono (h : EndsWithin parts n a) (hle : n ≤ m) : EndsWithin parts m a := by
  induction n generalizing a m with
  | zero => exact h.elim
  | succ n ih =>
    obtain ⟨m, rfl⟩ : ∃ k, m = k + 1 := ⟨m - 1, by omega⟩
    exact fun b hb => ih (h b hb) (Nat.le_of_succ_le_succ hle)

theorem Ends.part (h : Ends parts a) (hb : b ∈ parts a) : Ends parts b := h.inv hb

/-- A walk that goes to fewer parts ends as well. -/
theorem Ends.of_subset {parts' : α → List α} (hsub : ∀ a, ∀ b ∈ parts' a, b ∈ parts a)
    (h : Ends parts a) : Ends parts' a :=
  Subrelation.accessible (fun hb => hsub _ _ hb) h

/-- No path that ends comes back. -/
theorem Ends.not_back (h : Ends parts a) : ¬ TransGen (fun b c => c ∈ parts b) a a := by
  intro hback
  have hacc : Acc (TransGen fun c b => c ∈ parts b) a := h.transGen
  rw [← transGen_swap] at hback
  induction hacc with
  | intro a _ ih => exact ih a hback (h.inv_of_transGen hback) hback

/-- Paths stay among points that have their parts among them. -/
theorem Leads.mem {points : List α} (hclosed : ∀ a ∈ points, ∀ b ∈ parts a, b ∈ points)
    (h : Leads parts a b) (ha : a ∈ points) : b ∈ points := by
  induction h with
  | refl => exact ha
  | tail _ hb ih => exact hclosed _ ih _ hb

/-! ## Cells -/

section
variable {C : Type} {f : α → Option C}
variable (hcell : ∀ a b c, f a = some c → f b = some c → parts a = parts b)
variable (hleaf : ∀ a, f a = none → ∀ b ∈ parts a, parts b = [])
include hcell

/-- A path that ends comes by no cell twice. -/
theorem Ends.cell_ne (h : Ends parts a) {c : C} (ha : f a = some c) (hb : f b = some c) :
    ¬ TransGen (fun b c => c ∈ parts b) b a := by
  intro hpath
  obtain ⟨x, hx, hrest⟩ := TransGen.head'_iff.mp hpath
  rw [← hcell a b c ha hb] at hx
  exact h.not_back (TransGen.head'_iff.mpr ⟨x, hx, hrest⟩)

variable [Fintype C] [DecidableEq C]
include hleaf

/-- A walk that ends, ends within as many points as there are cells, and two more. -/
theorem Ends.within (h : Ends parts a) : EndsWithin parts (Fintype.card C + 2) a := by
  -- by induction on the number of cells that the path to `a` has not come by
  have hrest : ∀ (k : Nat) (V : Finset C) (a : α), V.card + k = Fintype.card C →
      (∀ c ∈ V, ∃ b, f b = some c ∧ TransGen (fun b c => c ∈ parts b) b a) →
      Ends parts a → EndsWithin parts (k + 2) a := by
    intro k
    induction k with
    | zero =>
      intro V a hcard hV ha
      cases hc : f a with
      | none => exact fun b hb => endsWithin_of_nil (hleaf a hc b hb) 0
      | some c =>
        have hall : V = Finset.univ := Finset.card_eq_iff_eq_univ V |>.mp hcard
        obtain ⟨b, hb, hpath⟩ := hV c (hall ▸ Finset.mem_univ c)
        exact absurd hpath (ha.cell_ne hcell hc hb)
    | succ k ih =>
      intro V a hcard hV ha
      cases hc : f a with
      | none => exact fun b hb => endsWithin_of_nil (hleaf a hc b hb) (k + 1)
      | some c =>
        have hnew : c ∉ V := fun hmem => by
          obtain ⟨b, hb, hpath⟩ := hV c hmem
          exact ha.cell_ne hcell hc hb hpath
        intro b hb
        refine ih (insert c V) b ?_ (fun d hd => ?_) (ha.part hb)
        · rw [Finset.card_insert_of_notMem hnew]
          omega
        · rcases Finset.mem_insert.mp hd with rfl | hd
          · exact ⟨a, hc, .single hb⟩
          · obtain ⟨e, he, hpath⟩ := hV d hd
            exact ⟨e, he, hpath.tail hb⟩
  exact hrest (Fintype.card C) ∅ a (by simp) (by simp) h

end
end TreeScript
