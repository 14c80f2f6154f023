import Mathlib.Data.List.Induction

/-
# The last of its sort

What a container holds is determined by what was done to it last, key by key: the last change of a key
counts, and nothing that happened to other keys before or since.  `Last` picks this change out of a
history and says what went before it.  A history that grows by one change either has its last change
there, or where it was (`last_concat`): this is the step of every induction over histories.
-/

namespace TreeScript

variable {ε : Type} {p : ε → Prop} {history before : List ε} {e : ε}

/-- An item of a history is the last one of its sort, and follows `before`. -/
def Last (p : ε → Prop) (history before : List ε) (e : ε) : Prop :=
  p e ∧ ∃ later, history = before ++ e :: later ∧ ∀ x ∈ later, ¬ p x

theorem not_last_nil : ¬ Last p [] before e := by
  rintro ⟨_, later, hsplit, _⟩
  simp at hsplit

theorem last_concat {x : ε} :
    Last p (history ++ [x]) before e ↔
      (p x ∧ before = history ∧ e = x) ∨ (¬ p x ∧ Last p history before e) := by
  constructor
  · rintro ⟨he, later, hsplit, hlater⟩
    rcases List.eq_nil_or_concat later with rfl | ⟨later, y, rfl⟩
    · -- nothing follows the item, so it is the new one
      obtain ⟨hbefore, hx⟩ := List.append_inj' hsplit rfl
      cases hx
      exact Or.inl ⟨he, hbefore.symm, rfl⟩
    · have hsplit' : history ++ [x] = (before ++ e :: later) ++ [y] := by
        rw [hsplit, List.concat_eq_append, List.append_assoc, List.cons_append]
      obtain ⟨hhistory, hx⟩ := List.append_inj' hsplit' rfl
      cases hx
      refine Or.inr ⟨hlater x (by simp), he, later, hhistory, fun y hy => hlater y ?_⟩
      exact List.concat_eq_append ▸ List.mem_append_left [x] hy
  · rintro (⟨hx, rfl, rfl⟩ | ⟨hx, he, later, rfl, hlater⟩)
    · exact ⟨hx, [], rfl, by simp⟩
    · refine ⟨he, later ++ [x], by simp, fun y hy => ?_⟩
      rcases List.mem_append.mp hy with hy | hy
      · exact hlater y hy
      · rw [List.mem_singleton.mp hy]
        exact hx

end TreeScript
