import TreeScript.Proofs.Isolation.Resumes

/-
# Interleavings

A schedule keeps the coroutines that it has made where they stand alone, and what one of them owns apart from
what the others own.  So each of them answers as it does when it is asked alone, whatever is asked of the others
in between; and a clone answers what its original has answered from the beginning.
-/

namespace TreeScript

open Exec

/-! ## Lists by place -/

section
variable {α : Type} {items : List α} {a b : α} {k j : Nat}

/-- What is in a list with one more item was there, or is this item. -/
theorem getElem?_concat (h : (items ++ [a])[k]? = some b) :
    items[k]? = some b ∨ k = items.length ∧ b = a := by
  rcases Nat.lt_or_ge k items.length with hlt | hge
  · rw [List.getElem?_append_left hlt] at h
    exact Or.inl h
  · rw [List.getElem?_append_right hge, List.getElem?_singleton] at h
    split at h
    · cases h
      exact Or.inr ⟨by omega, rfl⟩
    · cases h

/-- What is in a list after one item has been replaced was there, or is the new item. -/
theorem getElem?_replaced (h : (items.set k a)[j]? = some b) :
    k ≠ j ∧ items[j]? = some b ∨ k = j ∧ b = a := by
  rw [List.getElem?_set] at h
  split at h
  · next heq =>
    split at h
    · cases h
      exact Or.inr ⟨heq, rfl⟩
    · cases h
  · next hne => exact Or.inl ⟨hne, h⟩

/-- Putting back what is there changes nothing. -/
theorem set_of_getElem? (h : items[k]? = some a) : items.set k a = items := by
  obtain ⟨hlt, rfl⟩ := List.getElem?_eq_some_iff.mp h
  exact List.set_getElem_self hlt

/-- Nothing that looks the same on both items is changed where one replaces the other. -/
theorem map_set_of_getElem? {β : Type} {f : α → β} (h : items[k]? = some a) (hf : f b = f a) :
    (items.set k b).map f = items.map f := by
  rw [List.map_set, hf]
  exact set_of_getElem? (by rw [List.getElem?_map, h, Option.map_some])

end

namespace Isolation

/-! ## Coroutines that have been made -/

/-- Two coroutines have nothing in common in company. -/
structure Member.Apart (m n : Member) : Prop where
  id : m.id' ≠ n.id'
  scope : ∀ c, m.world.Owns c → ¬ n.world.Owns c
  slot : ∀ i, m.world.OwnsSlot i → ¬ n.world.OwnsSlot i

theorem Member.Apart.symm {m n : Member} (h : m.Apart n) : n.Apart m where
  id := h.id.symm
  scope c hn hm := h.scope c hm hn
  slot i hn hm := h.slot i hm hn

/-- What is new is not owned by a coroutine that stands in company. -/
theorem Member.Stands.apart_of_new {m n : Member} {s' : State} (hm : m.Stands s') (hid : m.id' ≠ n.id')
    {w : World} (hle : w.Le s'.heap n.world) (hscope : ∀ c, m.world.Owns c → ¬ w.Owns c)
    (hslot : ∀ i, m.world.OwnsSlot i → ¬ w.OwnsSlot i) : m.Apart n where
  id := hid
  scope := by
    rintro c ⟨a, ha⟩ ⟨d, hd⟩
    rcases hle.newScope hd with hold | hnew
    · exact hscope c ⟨a, ha⟩ ⟨d, hold⟩
    · exact absurd (hm.twins.scope_lt ha).2 (Nat.not_lt.mpr hnew)
  slot := by
    rintro i ⟨a, ha⟩ ⟨d, hd⟩
    rcases hle.newSlot hd with hold | hnew
    · exact hslot i ⟨a, ha⟩ ⟨d, hold⟩
    · exact absurd (hm.twins.slot_lt ha).2 (Nat.not_lt.mpr hnew)

/-- The coroutines that have been made stand where they stand alone, and have nothing in common. -/
structure Together (s : State) (members : List Member) (s' : State) : Prop where
  conditions : s.conditions = s'.conditions
  stands : ∀ {k : Nat} {m : Member}, members[k]? = some m → m.Stands s'
  apart : ∀ {k j : Nat} {m n : Member}, members[k]? = some m → members[j]? = some n → k ≠ j → m.Apart n

theorem together_nil (s : State) : Together s [] s := ⟨rfl, nofun, nofun⟩

/-- A coroutine is made. -/
theorem Together.make {s s' : State} {members : List Member} (h : Together s members s') (a : Start)
    (horigin : a.origin < s.heap.scopes.size) :
    ∃ w, Together s (members ++ [.made a w s s']) (s'.withHeap (a.make s'.heap).2) := by
  obtain ⟨w, hle, hstands, hspares⟩ := stands_made a horigin h.conditions
  have hapart : ∀ {k : Nat} {m : Member}, members[k]? = some m → m.Apart (.made a w s s') := by
    intro k m hm
    have hid : m.id' ≠ (a.make s'.heap).1 := by
      rw [a.make_fst]
      exact Nat.ne_of_lt (h.stands hm).lt'
    exact (h.stands hm).apart_of_new hid hle (fun c _ ⟨_, hc⟩ => hc) fun i _ ⟨_, hi⟩ => hi
  refine ⟨w, h.conditions.trans hspares.conditions.symm, fun hm => ?_, fun hm hn hne => ?_⟩
  · rcases getElem?_concat hm with hold | ⟨-, rfl⟩
    · have hm := hapart hold
      exact (h.stands hold).spared hspares hm.id hm.scope hm.slot
    · exact hstands
  · rcases getElem?_concat hm with hm | ⟨rfl, rfl⟩
    · rcases getElem?_concat hn with hn | ⟨-, rfl⟩
      · exact h.apart hm hn hne
      · exact hapart hm
    · rcases getElem?_concat hn with hn | ⟨rfl, -⟩
      · exact (hapart hn).symm
      · exact absurd rfl hne

/-- A coroutine is asked. -/
theorem Together.ask {s s' : State} {members : List Member} (h : Together s members s') {k : Nat} {m : Member}
    (hk : members[k]? = some m) {t t' : State} {w : World} (hleaves : m.Leaves s' t t' w) :
    Together s (members.set k { m with world := w, alone := t }) t' := by
  have hapart : ∀ {j : Nat} {n : Member}, members[j]? = some n → k ≠ j → n.Apart { m with world := w, alone := t } := by
    intro j n hn hne
    have hnm := (h.apart hk hn hne).symm
    exact (h.stands hn).apart_of_new hnm.id hleaves.le hnm.scope hnm.slot
  refine ⟨h.conditions.trans hleaves.spares.conditions.symm, fun hn => ?_, fun hn hn' hne => ?_⟩
  · rcases getElem?_replaced hn with ⟨hne, hn⟩ | ⟨-, rfl⟩
    · have hn' := hapart hn hne
      exact (h.stands hn).spared hleaves.spares hn'.id hn'.scope hn'.slot
    · exact hleaves.stands
  · rcases getElem?_replaced hn with ⟨hi, hn⟩ | ⟨rfl, rfl⟩
    · rcases getElem?_replaced hn' with ⟨-, hn'⟩ | ⟨rfl, rfl⟩
      · exact h.apart hn hn' hne
      · exact hapart hn hi
    · rcases getElem?_replaced hn' with ⟨-, hn'⟩ | ⟨rfl, -⟩
      · exact (hapart hn' hne).symm
      · exact absurd rfl hne

/-! ## What is foretold -/

/-- What a coroutine that has been made answers alone. -/
def Member.answers (fuel k : Nat) (tasks : List Task) (m : Member) : List (Outcome Value) :=
  serve (confinedEvaluator m.start.origin fuel) m.id (tasks.filterMap (Task.question? k)) m.alone

/-- The coroutines that have been made, and those that are made later, go on answering alone. -/
structure Going (fuel : Nat) (s : State) (tasks : List Task) (members : List Member) : Prop where
  made : ∀ {k : Nat} {m : Member}, members[k]? = some m → ∀ o ∈ m.answers fuel k tasks, o.isStopped = false
  unmade : ∀ a ∈ solos tasks (members.map Member.start), a.Confined fuel s

/-- The answers of a schedule are those that the coroutines give alone. -/
structure Foretold (fuel : Nat) (s : State) (tasks : List Task) (members : List Member)
    (answers : List (Nat × Outcome Value)) : Prop where
  made : ∀ {k : Nat} {m : Member}, members[k]? = some m → answersOf k answers = m.answers fuel k tasks
  unmade : ∀ {j : Nat} {a : Solo}, (solos tasks (members.map Member.start))[j]? = some a →
    answersOf (members.length + j) answers = a.answers (confinedEvaluator a.start.origin fuel) s

theorem answersOf_cons (k j : Nat) (o : Outcome Value) (answers : List (Nat × Outcome Value)) :
    answersOf k ((j, o) :: answers) = if j = k then o :: answersOf k answers else answersOf k answers := by
  unfold answersOf
  rw [List.filter_cons]
  by_cases h : j = k
  · simp [h]
  · simp [h]

section
variable {fuel : Nat} {s s' : State} {task : Task} {rest : List Task} {members : List Member}
variable {answers : List (Nat × Outcome Value)}

theorem answers_skip {k : Nat} (h : task.question? k = none) (m : Member) :
    m.answers fuel k (task :: rest) = m.answers fuel k rest := by
  rw [Member.answers, List.filterMap_cons_none h]
  rfl

/-! ### Coroutines that are made -/

/-- A coroutine that has just been made answers from the beginning. -/
theorem answers_made (c : Start) (w : World) (s' : State) (k : Nat) :
    (Member.made c w s s').answers fuel k rest =
      Solo.answers ⟨c, rest.filterMap (Task.question? k)⟩ (confinedEvaluator c.origin fuel) s := rfl

section
variable {c : Start} (hmakes : task.makes? (members.map Member.start) = some c)
include hmakes

theorem question?_of_makes (k : Nat) : task.question? k = none := by
  cases task with
  | ask j q => cases hmakes
  | _ => rfl

theorem solos_of_makes : solos (task :: rest) (members.map Member.start) =
    ⟨c, rest.filterMap (Task.question? members.length)⟩ :: solos rest (members.map Member.start ++ [c]) := by
  rw [solos, hmakes, List.length_map]

/-- The coroutine that is made goes on as one that is made later was to. -/
theorem Going.make (h : Going fuel s (task :: rest) members) (w : World) (s' : State) :
    Going fuel s rest (members ++ [.made c w s s']) := by
  have hunmade := h.unmade
  rw [solos_of_makes hmakes] at hunmade
  refine ⟨fun {k m} hm => ?_, ?_⟩
  · rcases getElem?_concat hm with hold | ⟨rfl, rfl⟩
    · have hgoing := h.made hold
      rw [answers_skip (question?_of_makes hmakes k)] at hgoing
      exact hgoing
    · exact (hunmade _ List.mem_cons_self).answers
  · rw [List.map_append]
    exact fun a ha => hunmade a (List.mem_cons_of_mem _ ha)

theorem Foretold.make {w : World} (h : Foretold fuel s rest (members ++ [.made c w s s']) answers) :
    Foretold fuel s (task :: rest) members answers := by
  refine ⟨fun {k m} hm => ?_, fun {j a} ha => ?_⟩
  · obtain ⟨hlt, -⟩ := List.getElem?_eq_some_iff.mp hm
    rw [answers_skip (question?_of_makes hmakes k)]
    exact h.made (by rw [List.getElem?_append_left hlt, hm])
  · rw [solos_of_makes hmakes] at ha
    cases j with
    | zero =>
      cases ha
      have hfirst := h.made (List.getElem?_concat_length)
      rw [answers_made] at hfirst
      exact hfirst
    | succ j =>
      have hlater := h.unmade (j := j) (a := a) (by rw [List.map_append]; exact ha)
      rw [List.length_append, List.length_singleton] at hlater
      rwa [show members.length + (j + 1) = members.length + 1 + j by omega]

end

/-! ### Coroutines that are asked -/

theorem question?_of_ne {k j : Nat} (hne : k ≠ j) (q : Question) : (Task.ask k q).question? j = none :=
  if_neg hne

section
variable {k : Nat} {m : Member} (hk : members[k]? = some m) (q : Question) (w : World)

theorem answers_ask : m.answers fuel k (.ask k q :: rest) =
    (q.answer m.id (confinedEvaluator m.start.origin fuel) m.alone).1 ::
      Member.answers fuel k rest
        { m with world := w, alone := (q.answer m.id (confinedEvaluator m.start.origin fuel) m.alone).2 } := by
  have hquestion : (Task.ask k q).question? k = some q := if_pos rfl
  rw [Member.answers, List.filterMap_cons_some hquestion]
  rfl

include hk

theorem map_start_set (t : State) :
    (members.set k { m with world := w, alone := t }).map Member.start = members.map Member.start :=
  map_set_of_getElem? hk rfl

theorem map_id_set (t : State) :
    (members.set k { m with world := w, alone := t }).map Member.id' = members.map Member.id' :=
  map_set_of_getElem? hk rfl

/-- A coroutine that is asked goes on. -/
theorem Going.ask (h : Going fuel s (.ask k q :: rest) members) :
    (q.answer m.id (confinedEvaluator m.start.origin fuel) m.alone).1.isStopped = false ∧
      Going fuel s rest (members.set k
        { m with world := w, alone := (q.answer m.id (confinedEvaluator m.start.origin fuel) m.alone).2 }) := by
  have hanswers := h.made hk
  rw [answers_ask q w] at hanswers
  refine ⟨hanswers _ List.mem_cons_self, fun {j n} hn => ?_, ?_⟩
  · rcases getElem?_replaced hn with ⟨hne, hold⟩ | ⟨rfl, rfl⟩
    · have hother := h.made hold
      rw [answers_skip (question?_of_ne hne q)] at hother
      exact hother
    · exact fun o ho => hanswers o (List.mem_cons_of_mem _ ho)
  · rw [map_start_set hk w]
    exact h.unmade

theorem Foretold.ask
    (h : Foretold fuel s rest (members.set k
      { m with world := w, alone := (q.answer m.id (confinedEvaluator m.start.origin fuel) m.alone).2 }) answers) :
    Foretold fuel s (.ask k q :: rest) members
      ((k, (q.answer m.id (confinedEvaluator m.start.origin fuel) m.alone).1) :: answers) := by
  obtain ⟨hlt, -⟩ := List.getElem?_eq_some_iff.mp hk
  refine ⟨fun {j n} hn => ?_, fun {j a} ha => ?_⟩
  · rw [answersOf_cons]
    split
    · next heq =>
      subst heq
      obtain rfl : m = n := Option.some.inj (hk.symm.trans hn)
      rw [answers_ask q w, h.made (List.getElem?_set_self hlt)]
    · next hne =>
      rw [answers_skip (question?_of_ne hne q), h.made (by rw [List.getElem?_set_ne hne, hn])]
  · have hlater := h.unmade (j := j) (a := a) (by rw [map_start_set hk w]; exact ha)
    rw [List.length_set] at hlater
    rw [answersOf_cons, if_neg (by omega), hlater]

end

/-! ### What concerns no coroutine -/

section
variable (hmakes : task.makes? (members.map Member.start) = none)
variable (hquestion : ∀ {k : Nat} {m : Member}, members[k]? = some m → task.question? k = none)
include hmakes hquestion

theorem Going.skip (h : Going fuel s (task :: rest) members) : Going fuel s rest members := by
  refine ⟨fun {k m} hm => ?_, fun a ha => h.unmade a ?_⟩
  · have hgoing := h.made hm
    rw [answers_skip (hquestion hm)] at hgoing
    exact hgoing
  · rw [solos, hmakes]
    exact ha

theorem Foretold.skip (h : Foretold fuel s rest members answers) :
    Foretold fuel s (task :: rest) members answers := by
  refine ⟨fun {k m} hm => ?_, fun {j a} ha => h.unmade ?_⟩
  · rw [answers_skip (hquestion hm)]
    exact h.made hm
  · rw [solos, hmakes] at ha
    exact ha

end
end

/-! ## Schedules -/

section
variable {fuel : Nat} {s s' : State} {rest : List Task} {members : List Member} {k : Nat}

/-- A coroutine that is made again is made from what the original was made from. -/
theorem Together.restart_eq (h : Together s members s') {m : Member} (hk : members[k]? = some m) :
    s'.heap.restart m.id' = m.start.make s'.heap := by
  have hstands := h.stands hk
  rw [← hstands.start, hstands.record.start]
  rfl

theorem makes?_clone : (Task.clone k).makes? (members.map Member.start) = members[k]?.map Member.start :=
  List.getElem?_map

/-- No member is asked a question for one that has not been made. -/
theorem question?_of_unmade (hk : members[k]? = none) (q : Question) {j : Nat} {m : Member}
    (hm : members[j]? = some m) : (Task.ask k q).question? j = none := by
  refine question?_of_ne ?_ q
  rintro rfl
  cases hk.symm.trans hm

variable (hrest : ∀ {members : List Member} {s' : State}, Together s members s' → Going fuel s rest members →
  Foretold fuel s rest members (play (evaluator fuel) rest (members.map Member.id') s'))
variable (htogether : Together s members s')
include hrest htogether

/-- What is made goes on as it stands alone at its beginning. -/
theorem foretold_made {task : Task} {c : Start} (hmakes : task.makes? (members.map Member.start) = some c)
    (hgoing : Going fuel s (task :: rest) members) :
    Foretold fuel s (task :: rest) members (play (evaluator fuel) rest
      (members.map Member.id' ++ [(c.make s'.heap).1]) (s'.withHeap (c.make s'.heap).2)) := by
  have hconfined := hgoing.unmade
  rw [solos_of_makes hmakes] at hconfined
  obtain ⟨w, hnext⟩ := htogether.make c (hconfined _ List.mem_cons_self).origin
  have hlater := hrest hnext (hgoing.make hmakes w s')
  rw [List.map_append] at hlater
  exact Foretold.make hmakes hlater

theorem foretold_clone (hgoing : Going fuel s (.clone k :: rest) members) :
    Foretold fuel s (.clone k :: rest) members
      (play (evaluator fuel) (.clone k :: rest) (members.map Member.id') s') := by
  have hmakes : (Task.clone k).makes? (members.map Member.start) = members[k]?.map Member.start := makes?_clone
  rw [play, List.getElem?_map]
  cases hk : members[k]? with
  | none =>
    rw [hk] at hmakes
    exact (hrest htogether (hgoing.skip hmakes fun _ => rfl)).skip hmakes fun _ => rfl
  | some m =>
    rw [hk] at hmakes
    dsimp only [Option.map_some]
    rw [htogether.restart_eq hk]
    exact foretold_made hrest htogether hmakes hgoing

theorem foretold_ask {q : Question} (hgoing : Going fuel s (.ask k q :: rest) members) :
    Foretold fuel s (.ask k q :: rest) members
      (play (evaluator fuel) (.ask k q :: rest) (members.map Member.id') s') := by
  rw [play, List.getElem?_map]
  cases hk : members[k]? with
  | none =>
    have hquestion : ∀ {j : Nat} {m : Member}, members[j]? = some m → (Task.ask k q).question? j = none :=
      fun hm => question?_of_unmade hk q hm
    exact (hrest htogether (hgoing.skip rfl hquestion)).skip rfl hquestion
  | some m =>
    obtain ⟨hstop, -⟩ := hgoing.ask hk q m.world
    obtain ⟨hanswer, w, hleaves⟩ := (htogether.stands hk).answer q fuel hstop
    obtain ⟨-, hgoing'⟩ := hgoing.ask hk q w
    have hlater := hrest (htogether.ask hk hleaves) hgoing'
    -- the one that was asked is still known by the same number
    rw [map_id_set hk w] at hlater
    dsimp only [Option.map_some]
    rw [hanswer]
    exact hlater.ask hk q w

end

/-- A schedule answers what is foretold: by induction on its steps, while the coroutines stand together. -/
theorem play_foretold {fuel : Nat} {s : State} (tasks : List Task) {members : List Member} {s' : State}
    (htogether : Together s members s') (hgoing : Going fuel s tasks members) :
    Foretold fuel s tasks members (play (evaluator fuel) tasks (members.map Member.id') s') := by
  induction tasks generalizing members s' with
  | nil => exact ⟨fun _ => rfl, nofun⟩
  | cons task rest ih =>
    cases task with
    | make c => exact foretold_made ih htogether rfl hgoing
    | clone k => exact foretold_clone ih htogether hgoing
    | ask k q => exact foretold_ask ih htogether hgoing

/-- A coroutine that is asked in company answers what it answers alone. -/
theorem Member.Stands.serve {fuel : Nat} (qs : List Question) {m : Member} {s' : State} (hm : m.Stands s')
    (hstop : ∀ o ∈ serve (confinedEvaluator m.start.origin fuel) m.id qs m.alone, o.isStopped = false) :
    serve (evaluator fuel) m.id' qs s' = serve (confinedEvaluator m.start.origin fuel) m.id qs m.alone := by
  induction qs generalizing m s' with
  | nil => rfl
  | cons q qs ih =>
    obtain ⟨hanswer, w, hleaves⟩ := hm.answer q fuel (hstop _ List.mem_cons_self)
    have hrest := ih hleaves.stands fun o ho => hstop o (List.mem_cons_of_mem _ ho)
    rw [TreeScript.serve, TreeScript.serve, hanswer]
    exact congrArg (_ :: ·) hrest

end Isolation

/-- A coroutine that stays within its confines answers the same when it is not watched. -/
theorem Solo.Confined.answers_eq {a : Solo} {fuel : Nat} {s : State} (h : a.Confined fuel s) :
    a.answers (evaluator fuel) s = a.answers (confinedEvaluator a.start.origin fuel) s := by
  have hconditions : s.conditions = s.conditions := rfl
  obtain ⟨w, -, hstands, -⟩ := Isolation.stands_made a.start h.origin hconditions
  exact hstands.serve a.questions h.answers

/-- Who is asked less, answers less. -/
theorem serve_prefix (ev : Evaluator) (i : Nat) {qs qs' : List Question} (h : qs <+: qs') (s : State) :
    serve ev i qs s <+: serve ev i qs' s := by
  induction qs generalizing qs' s with
  | nil => exact List.nil_prefix
  | cons q qs ih =>
    obtain ⟨rest, rfl⟩ := h
    exact List.prefix_cons_inj _ |>.mpr (ih (List.prefix_append qs rest) _)

/-- **Coroutines are isolated from each other.**  Coroutines are made, cloned, resumed and asked whether they are
finished, in any order.  If each of them stays within its confines when it is made in the state in which all
begins and asked alone, then each answers in company what it answers alone: the same values, the same errors,
and the same on whether it is finished.  A clone is made from what its original was made from, in whichever
state the original is, and answers what the original answers from the beginning. -/
theorem coroutines_isolated (fuel : Nat) (s : State) (tasks : List Task)
    (h : ∀ a ∈ solos tasks [], a.Confined fuel s) :
    (∀ k a, (solos tasks [])[k]? = some a →
      answersOf k (play (evaluator fuel) tasks [] s) = a.answers (evaluator fuel) s) ∧
    ∀ k j a b, (solos tasks [])[k]? = some a → (solos tasks [])[j]? = some b → b.start = a.start →
      b.questions <+: a.questions →
      answersOf j (play (evaluator fuel) tasks [] s) <+: answersOf k (play (evaluator fuel) tasks [] s) := by
  have hgoing : Isolation.Going fuel s tasks [] := ⟨nofun, h⟩
  have hforetold := Isolation.play_foretold tasks (Isolation.together_nil s) hgoing
  have halone : ∀ k a, (solos tasks [])[k]? = some a →
      answersOf k (play (evaluator fuel) tasks [] s) = a.answers (evaluator fuel) s := by
    intro k a ha
    rw [(h a (List.mem_of_getElem? ha)).answers_eq, ← hforetold.unmade ha, List.length_nil, Nat.zero_add]
    rfl
  refine ⟨halone, fun k j a b ha hb hstart hquestions => ?_⟩
  rw [halone j b hb, halone k a ha, Solo.answers, Solo.answers, hstart]
  exact serve_prefix _ _ hquestions _

/-! ## Coroutines that count -/

namespace Counting

/-- Yield the numbers below `n`, and end with 99. -/
def body : Node := .block [
  .declare .int "i" (some (.literal (.int 0))),
  .whileLoop (.binary .lt (.var "i") (.var "n")) (.block [
    .yieldWith (some (.var "i")),
    .assign "i" (.binary .add (.var "i") (.literal (.int 1)))]),
  .literal (.int 99)]

def start (n : Int32) : Start := ⟨"count", [⟨"n", .int⟩], body, [.int n], 0⟩

/-- A session in which nothing has happened. -/
def state : State := ⟨Heap.empty.newRoot.2, .empty, [], .new 1 0 ⟨.test, .buffer "", false, true, 64⟩⟩

def resume : Question := .resume ⟨0, .empty none⟩

/-- A coroutine, its clone, and another take turns. -/
def tasks : List Task := [.make (start 2), .ask 0 resume, .clone 0, .make (start 1), .ask 1 resume,
  .ask 0 resume, .ask 2 resume, .ask 1 resume, .ask 2 resume, .ask 2 .isFinished, .ask 0 resume, .ask 0 .isFinished,
  .ask 1 resume]

/-- A class is defined before the first `yield`. -/
def definer : Start :=
  ⟨"define", [], .block [.classDef ⟨"A", [], [], [], []⟩, .yieldWith (some (.literal (.int 1)))], [], 0⟩

/-- Two coroutines that define a class are resumed. -/
def definitions : List Task := [.make definer, .make definer, .ask 0 resume, .ask 1 resume]

/-- Two coroutines that count have been made under a budget. -/
def limited (budget : Nat) : State :=
  (state.withMeter ⟨0, some budget, none⟩).withHeap ((start 2).make ((start 2).make state.heap).2).2

end Counting

deriving instance DecidableEq for Outcome

open Counting in
theorem coroutines_isolated_counting :
    (∀ a ∈ solos tasks [], a.Confined 20 state) ∧
      answersOf 0 (play (evaluator 20) tasks [] state) =
        [.value (.int 0), .value (.int 1), .value (.int 99), .value (.bool true)] ∧
      answersOf 1 (play (evaluator 20) tasks [] state) <+:
        answersOf 0 (play (evaluator 20) tasks [] state) := by
  have hconfined : ∀ a ∈ solos tasks [], a.Confined 20 state := by decide +kernel
  have hfirst : (solos tasks [])[0]? = some ⟨start 2, [resume, resume, resume, .isFinished]⟩ := rfl
  have hclone : (solos tasks [])[1]? = some ⟨start 2, [resume, resume, resume]⟩ := rfl
  obtain ⟨halone, hclones⟩ := coroutines_isolated 20 state tasks hconfined
  refine ⟨hconfined, ?_, ?_⟩
  · rw [halone 0 _ hfirst]
    decide +kernel
  · exact hclones 0 1 _ _ hfirst hclone rfl ⟨[.isFinished], rfl⟩

open Counting in
/-- Coroutines are in one session: a class that one of them defines cannot be defined by another, which would
have defined it alone; and what one of them takes of the budget is missing to the other when it goes on. -/
theorem coroutines_share_session :
    (solos definitions []).map (fun a => (a.answers (evaluator 20) state).map Outcome.value?) =
        [[some (.int 1)], [some (.int 1)]] ∧
      (play (evaluator 20) definitions [] state).map (fun a => (a.1, a.2.value?)) =
        [(0, some (.int 1)), (1, none)] ∧
      let first := ((resumeCoroutine 0).run 20 (limited 30)).2
      let between := ((resumeCoroutine 1).run 20 first).2
      ((resumeCoroutine 0).run 20 first).1 = .value (.int 1) ∧
        ((resumeCoroutine 0).run 20 between).1.value? = none := by
  decide +kernel

end TreeScript
