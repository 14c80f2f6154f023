import Mathlib.Data.List.Forall2
import TreeScript.Proofs.Hierarchy.Walk

/-
# The order of classes

A class extends itself and what its superclasses extend.  Whether it does is asked of a class or of a name,
and the answer is found by going up the superclasses, which for registered classes comes to an end: what a
class lists has been registered before it (`Registered.wellFounded`).  Among registered classes extending is
a partial order, in which classes of one name are one class (`Registered.antisymm`), and a class has every
field, method and constructor that a class has which it extends (`Registered.covers`).
-/

namespace TreeScript

namespace ClassDef

/-! ## Going up -/

theorem anyExtendsName_eq (supers : List ClassDef) (name : String) :
    anyExtendsName supers name = supers.any (·.extendsName name) := by
  induction supers with
  | nil => rfl
  | cons s supers ih => rw [anyExtendsName, ih, List.any_cons]

/-- A class extends the class of a name if it has the name or one of its superclasses does. -/
theorem extendsName_iff (c : ClassDef) (name : String) :
    c.extendsName name = true ↔ c.name = name ∨ ∃ s ∈ c.superclasses, s.extendsName name = true := by
  cases c
  rw [extendsName, anyExtendsName_eq, Bool.or_eq_true, beq_iff_eq, List.any_eq_true]
  rfl

/-- A class is larger than its superclasses, which it holds. -/
theorem sizeOf_lt {c s : ClassDef} (hs : s ∈ c.superclasses) : sizeOf s < sizeOf c := by
  cases c with
  | mk name supers fields methods constructors =>
    have hlt : sizeOf s < sizeOf supers := List.sizeOf_lt_of_mem hs
    rw [mk.sizeOf_spec]
    omega

/-- What holds of a class if it holds of its superclasses holds of every class. -/
theorem superclassInduction {P : ClassDef → Prop}
    (h : ∀ c : ClassDef, (∀ s ∈ c.superclasses, P s) → P c) (c : ClassDef) : P c := by
  induction hsize : sizeOf c using Nat.strongRecOn generalizing c with
  | ind n ih => exact h c fun s hs => ih (sizeOf s) (hsize ▸ sizeOf_lt hs) s rfl

end ClassDef

/-! ## Members -/

/-- A class has every field, every method and every constructor that another one has, though it may have one
of its own in their place. -/
structure ClassDef.Covers (c d : ClassDef) : Prop where
  field : ∀ name, (d.field? name).isSome = true → (c.field? name).isSome = true
  method : ∀ key, (d.methods.find? key).isSome = true → (c.methods.find? key).isSome = true
  constructor : ∀ arity,
    (d.constructors.find? arity).isSome = true → (c.constructors.find? arity).isSome = true

section
variable {b c d : ClassDef}

theorem ClassDef.Covers.refl (c : ClassDef) : c.Covers c := ⟨fun _ h => h, fun _ h => h, fun _ h => h⟩

theorem ClassDef.Covers.trans (h : b.Covers c) (h' : c.Covers d) : b.Covers d where
  field name hd := h.field name (h'.field name hd)
  method key hd := h.method key (h'.method key hd)
  constructor arity hd := h.constructor arity (h'.constructor arity hd)

/-- What one of the superclasses has is found. -/
theorem isSome_or_findSome? {α β : Type} {f : α → Option β} {supers : List α} {s : α} (hs : s ∈ supers)
    (hfound : (f s).isSome = true) (own : Option β) : (own.or (supers.findSome? f)).isSome = true := by
  rw [Option.isSome_or, List.findSome?_isSome_iff.mpr ⟨s, hs, hfound⟩, Bool.or_true]

/-- A class covers the superclasses from which it is merged. -/
theorem Registration.Merges.covers {r : Registration} {supers : List ClassDef} (h : r.Merges supers c)
    {s : ClassDef} (hs : s ∈ supers) : c.Covers s where
  field name hfound := h.field name ▸ isSome_or_findSome? hs hfound _
  method key hfound := h.method key ▸ isSome_or_findSome? hs hfound _
  constructor arity hfound := h.constructor arity ▸ isSome_or_findSome? hs hfound _

end

/-! ## Registered classes -/

/-- A class that is registered, under its name. -/
def Registered.Holds (classes : Table String ClassDef) (c : ClassDef) : Prop :=
  classes.find? c.name = some c

/-- What is paired with an item of a list. -/
theorem exists_of_forall₂ {α β : Type} {R : α → β → Prop} {as : List α} {bs : List β}
    (h : List.Forall₂ R as bs) {b : β} (hb : b ∈ bs) : ∃ a, R a b := by
  induction h with
  | nil => cases hb
  | @cons a _ _ _ hab _ ih =>
    rcases List.mem_cons.mp hb with rfl | hb
    · exact ⟨a, hab⟩
    · exact ih hb

namespace Registered

variable {book : List Registration} {classes : Table String ClassDef} {a b c s : ClassDef}

theorem Holds.eq (ha : Holds classes a) (hb : Holds classes b) (hname : a.name = b.name) : a = b :=
  Option.some.inj (ha.symm.trans (hname ▸ hb))

/-- A registered class is merged from registered classes. -/
theorem exists_merges (h : Registered book classes) (hc : Holds classes c) :
    (∃ r : Registration, r.Merges c.superclasses c) ∧ ∀ s ∈ c.superclasses, Holds classes s := by
  unfold Holds at hc
  induction h with
  | none => cases hc
  | @register book classes r b hbook hbuild hnew ih =>
    -- classes stay what they are when another one is registered
    have hstays : ∀ {s}, Holds classes s → Holds (classes.insert b.name b) s := find?_register hnew
    rw [Table.find?_insert] at hc
    split at hc
    · cases hc
      obtain ⟨supers, hsupers, hmerges⟩ := Registration.merges_of_build hbuild
      rw [hmerges.superclasses]
      refine ⟨⟨r, hmerges⟩, fun s hs => hstays ?_⟩
      obtain ⟨name, hname⟩ := exists_of_forall₂ hsupers hs
      show classes.find? s.name = some s
      rw [hbook.name_eq hname, hname]
    · obtain ⟨hmerges, hsupers⟩ := ih hc
      exact ⟨hmerges, fun s hs => hstays (hsupers s hs)⟩

theorem superclass (h : Registered book classes) (hc : Holds classes c) (hs : s ∈ c.superclasses) :
    Holds classes s :=
  (h.exists_merges hc).2 s hs

/-- What a class extends is the class itself, or is smaller. -/
theorem eq_or_sizeOf_lt (h : Registered book classes) (ha : Holds classes a) (hb : Holds classes b)
    (hab : a.extendsName b.name = true) : a = b ∨ sizeOf b < sizeOf a := by
  induction a using ClassDef.superclassInduction with
  | h a ih =>
    rcases (a.extendsName_iff b.name).mp hab with hname | ⟨s, hs, hsb⟩
    · exact .inl (ha.eq hb hname)
    · right
      have hlt := ClassDef.sizeOf_lt hs
      rcases ih s hs (h.superclass ha hs) hsb with rfl | hsize
      · exact hlt
      · exact Nat.lt_trans hsize hlt

theorem antisymm (h : Registered book classes) (ha : Holds classes a) (hb : Holds classes b)
    (hab : a.extendsName b.name = true) (hba : b.extendsName a.name = true) : a = b := by
  rcases h.eq_or_sizeOf_lt ha hb hab with heq | hlt
  · exact heq
  · rcases h.eq_or_sizeOf_lt hb ha hba with heq | hlt'
    · exact heq.symm
    · omega

theorem trans (h : Registered book classes) (ha : Holds classes a) (hb : Holds classes b)
    (hab : a.extendsName b.name = true) (hbc : b.extendsName c.name = true) :
    a.extendsName c.name = true := by
  induction a using ClassDef.superclassInduction with
  | h a ih =>
    rcases (a.extendsName_iff b.name).mp hab with hname | ⟨s, hs, hsb⟩
    · exact ha.eq hb hname ▸ hbc
    · exact (a.extendsName_iff c.name).mpr (.inr ⟨s, hs, ih s hs (h.superclass ha hs) hsb⟩)

/-- A class covers what it extends. -/
theorem covers (h : Registered book classes) (ha : Holds classes a) (hb : Holds classes b)
    (hab : a.extendsName b.name = true) : a.Covers b := by
  induction a using ClassDef.superclassInduction with
  | h a ih =>
    rcases (a.extendsName_iff b.name).mp hab with hname | ⟨s, hs, hsb⟩
    · exact ha.eq hb hname ▸ .refl a
    · obtain ⟨⟨r, hmerges⟩, hsupers⟩ := h.exists_merges ha
      exact (hmerges.covers hs).trans (ih s hs (hsupers s hs) hsb)

end Registered
end TreeScript
