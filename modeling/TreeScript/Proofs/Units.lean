import TreeScript.Proofs.Integers.Promotion
import TreeScript.Proofs.Overloads
import TreeScript.Proofs.Rounds
import TreeScript.Proofs.Texts

/-
# Walking a string

A loop over a string and its places give the same chars, one for each code unit of UTF-16.  A character of
the basic plane is one unit and comes back as it was.  Any other character is two, and each half is a char
with no text of its own, which is shown as the replacement character; what the chars add up to is the string
with two replacement characters in place of every such character (`Units.shownText`).
-/

namespace TreeScript

open Exec

/-! ## Units as texts -/

namespace Units

/-- The chars of a text. -/
def chars (s : String) : List Value := (ofString s).map .char

@[simp]
theorem length_chars (s : String) : (chars s).length = (ofString s).length := List.length_map ..

/-- What is shown of the units of a character. -/
def shown (c : Char) : List Char := if c.toNat < 0x10000 then [c] else ['\ufffd', '\ufffd']

/-- What is shown of the units of a text. -/
def shownText (s : String) : String := String.ofList (s.toList.flatMap shown)

theorem toChar_surrogate {n : Nat} (hlow : 0xd800 ≤ n) (hhigh : n ≤ 0xdfff) :
    toChar n.toUInt16 = '\ufffd' := by
  have hsurrogate : isSurrogate n.toUInt16 = true := by
    simp [isSurrogate, UInt16.le_iff_toNat_le]
    omega
  rw [toChar, hsurrogate, if_pos rfl]

theorem toNat_valid (c : Char) : c.toNat < 0xd800 ∨ 0xdfff < c.toNat ∧ c.toNat < 0x110000 := c.valid

/-- The units of a character, shown one by one. -/
theorem map_toChar_ofChar (c : Char) : (ofChar c).map toChar = shown c := by
  have hvalid := toNat_valid c
  unfold ofChar shown
  dsimp only
  split
  · rename_i hlt
    have hnat : c.toNat.toUInt16.toNat = c.toNat := by
      simp
      omega
    have hsingle : isSurrogate c.toNat.toUInt16 = false := by
      simp [isSurrogate, UInt16.le_iff_toNat_le]
      omega
    rw [List.map_singleton, toChar, hsingle, if_neg Bool.false_ne_true, hnat, Char.ofNat_toNat]
  · rename_i hge
    rw [List.map_cons, List.map_singleton, toChar_surrogate (by omega) (by omega),
      toChar_surrogate (by omega) (by omega)]

theorem map_toChar_ofString (s : String) : (ofString s).map toChar = s.toList.flatMap shown := by
  rw [ofString, List.map_flatMap]
  exact congrArg s.toList.flatMap (funext map_toChar_ofChar)

theorem append_toText (text : String) (u : UInt16) (us : List UInt16) :
    text ++ toText u ++ String.ofList (us.map toChar) = text ++ String.ofList ((u :: us).map toChar) := by
  rw [toText, List.map_cons, String.append_assoc, String.singleton_eq_ofList, ← String.ofList_append,
    List.singleton_append]

/-- Each character beyond the basic plane is shown as one more character. -/
theorem length_flatMap_shown (cs : List Char) :
    (cs.flatMap shown).length = cs.length + cs.countP fun c => 0x10000 ≤ c.toNat := by
  induction cs with
  | nil => rfl
  | cons c cs ih =>
    rw [List.flatMap_cons, List.length_append, ih, List.length_cons, List.countP_cons, shown]
    by_cases hc : c.toNat < 0x10000
    · simp [hc, Nat.not_le_of_lt hc]
      omega
    · simp [hc, Nat.le_of_not_lt hc]
      omega

/-- Texts of characters of the basic plane are shown as they are, and no others. -/
theorem shownText_eq_iff {s : String} : shownText s = s ↔ ∀ c ∈ s.toList, c.toNat < 0x10000 := by
  constructor
  · intro heq c hc
    have hlist : s.toList.flatMap shown = s.toList := by
      rw [← String.toList_ofList (l := s.toList.flatMap shown)]
      exact congrArg String.toList heq
    have hlength := length_flatMap_shown s.toList
    rw [hlist] at hlength
    have hnone : s.toList.countP (fun c => 0x10000 ≤ c.toNat) = 0 := by omega
    simpa using List.countP_eq_zero.mp hnone c hc
  · intro hbasic
    have hshown : s.toList.flatMap shown = s.toList.flatMap fun c => [c] :=
      List.flatMap_congr fun c hc => if_pos (hbasic c hc)
    rw [shownText, hshown, List.flatMap_singleton', String.ofList_toList]

end Units

/-! ## Places -/

namespace Heap

variable {h : Heap} {key : Value} {n i : Nat}

/-- Integers are longs. -/
theorem integerOf_long {m : Int} (hkey : integer? key = some m) : integerOf .long key = .ok m := by
  obtain ⟨p, hp, hpty⟩ := exists_rank hkey
  have hle : Rank.long.depth ≤ p.depth := by
    cases p <;> first | decide | cases hpty
  exact integerOf_of_depth_le (q := .long) hkey hp hle rfl nofun

/-- A place that there is, given by a number. -/
theorem placeOf_of_lt (hkey : integer? key = some (i : Int)) (hi : i < n) : placeOf h key n = .ok i := by
  have hnull : key.isNull = false := by
    cases key <;> first | rfl | cases hkey
  have hnonneg : ¬ (i : Int) < 0 := by omega
  -- neither counted from the end nor out of range
  have hlt : ¬ ((i : Int) < 0 ∨ (n : Int) ≤ i) := by omega
  simp only [placeOf, hnull, integerOf_long hkey, Bool.false_eq_true, if_false]
  show (if _ then _ else _) = _
  rw [if_neg hnonneg, if_neg hlt, Int.toNat_natCast]
  rfl

end Heap

/-! ## Sums -/

namespace Exec

variable {ev : Evaluator} {s : State} {text : String}

/-- A string has a char for each place that it has units. -/
theorem indexGet_str {key : Value} {i : Nat} {u : UInt16} (hkey : Heap.integer? key = some (i : Int))
    (hu : (Units.ofString text)[i]? = some u) :
    indexGet (.str text) [key] ev s = (.value (.char u), s) := by
  obtain ⟨hi, rfl⟩ := List.getElem?_eq_some_iff.mp hu
  have helement : element s.heap (.str text) key true true = .ok (.char (Units.ofString text)[i]) := by
    simp only [element, if_true, Heap.placeOf_of_lt hkey hi]
    show Except.ok (Value.char ((Units.ofString text).getD i 0)) = _
    rw [List.getD_eq_getElem?_getD, List.getElem?_eq_getElem hi]
    rfl
  show (ofChecked (element s.heap (.str text) key true true) >>= pure) ev s = _
  rw [helement]
  rfl

/-- Evaluations that leave the state as it is give their values one after the other. -/
theorem mapM_of_forall₂ {α β : Type} {f : α → Exec β} {as : List α} {bs : List β}
    (h : List.Forall₂ (fun a b => f a ev s = (.value b, s)) as bs) :
    as.mapM f ev s = (.value bs, s) := by
  induction h with
  | nil => rfl
  | cons ha _ ih =>
    rw [List.mapM_cons, bind_apply, ha]
    dsimp only
    rw [bind_apply, ih]
    rfl

/-- Keys for all places in order give the chars of a string. -/
theorem mapM_indexGet_str {keys : List Value}
    (hkeys : keys.map Heap.integer? =
      (List.range (Units.chars text).length).map fun i : Nat => some (i : Int)) :
    keys.mapM (fun key => indexGet (.str text) [key]) ev s = (.value (Units.chars text), s) := by
  apply mapM_of_forall₂
  rw [Units.chars, List.forall₂_map_right_iff, List.forall₂_iff_get]
  have hlength : keys.length = (Units.ofString text).length := by simpa using congrArg List.length hkeys
  -- the key at each place is the number of the place
  refine ⟨hlength, fun i hi hi' => ?_⟩
  have hkey : Heap.integer? keys[i] = some (i : Int) := by
    have hentry := congrArg (fun l => l[i]?) hkeys
    simpa [List.getElem?_eq_getElem hi, hi'] using hentry
  exact indexGet_str hkey (List.getElem?_eq_getElem hi')

/-- A sum of a string and a char shows the char. -/
theorem applyBinary_add_char (hfuel : 0 < ev.fuel) (text : String) (u : UInt16) :
    applyBinary .add (.str text) (.char u) ev s =
      (.value (.str (text ++ Units.toText u)), s) := by
  obtain ⟨n, hn⟩ := Nat.exists_eq_add_of_lt hfuel
  have hchar : stringify (.char u) ev s = (.value (Units.toText u), s) := by
    show stringifyTo ev.fuel (.char u) false ev s = _
    rw [hn]
    rfl
  show (stringify (.str text) >>= fun left => stringify (.char u) >>= fun right =>
    pure (Value.str (left ++ right))) ev s = _
  rw [bind_apply, stringify_str hfuel]
  dsimp only
  rw [bind_apply, hchar]
  rfl

/-- Adding up chars shows them one after the other. -/
theorem foldlM_add_chars (hfuel : 0 < ev.fuel) (text : String) (us : List UInt16) :
    (us.map Value.char).foldlM (applyBinary .add) (.str text) ev s =
      (.value (.str (text ++ String.ofList (us.map Units.toChar))), s) := by
  induction us generalizing text with
  | nil => simp
  | cons u us ih =>
    rw [List.map_cons, List.foldlM_cons, bind_apply, applyBinary_add_char hfuel]
    dsimp only
    rw [ih, Units.append_toText]

end Exec

/-! ## Adding up in a loop -/

/-- A statement that adds a variable to another. -/
def Node.addTo (sum x : String) : Node := .assign sum (.binary .add (.var sum) (.var x))

/-- A mutable variable of a scope holds a text, and some more nodes may be evaluated. -/
structure State.Sums (s : State) (scope slot : Nat) (sum text : String) (nodes : Nat) : Prop where
  lookup : s.heap.lookup scope sum = some slot
  slot : s.heap.slot slot = ⟨.any, .str text, true⟩
  known : scope < s.heap.scopes.size
  calm : s.session.resume = []
  affords : s.Affords nodes

/-- A text and the chars that are still to be added to it make up a whole. -/
def State.MakesUp (s : State) (scope slot : Nat) (sum whole : String) (items : List Value) : Prop :=
  ∃ (us : List UInt16) (text : String), items = us.map Value.char ∧
    text ++ String.ofList (us.map Units.toChar) = whole ∧ s.Sums scope slot sum text (4 * us.length)

namespace Exec

variable {s : State} {scope slot nodes n : Nat} {sum x text : String} {u : UInt16}

/-- The statement adds a char to the text. -/
theorem evaluateNode_addTo {c : Nat} (hlookup : s.heap.lookup c sum = some slot)
    (hslot : s.heap.slot slot = ⟨.any, .str text, true⟩) (hx : s.heap.read c x = .char u)
    (haffords : s.Affords (nodes + 4)) :
    ∃ m, evaluateNode (n + 3) (.addTo sum x) c s = (.value (.str (text ++ Units.toText u)),
        (s.withMeter m).withHeap (s.heap.setValue slot (.str (text ++ Units.toText u)))) ∧
      (s.withMeter m).Affords nodes := by
  -- four nodes are entered: the assignment, the sum and its two variables
  obtain ⟨m₁, h₁, haffords₁⟩ := enterNode_affords haffords
  obtain ⟨m₂, h₂, haffords₂⟩ := enterNode_affords haffords₁
  obtain ⟨m₃, h₃, haffords₃⟩ := enterNode_affords haffords₂
  obtain ⟨m₄, h₄, haffords₄⟩ := enterNode_affords haffords₃
  have hsum : s.heap.read c sum = .str text := by
    rw [Heap.read, hlookup]
    exact congrArg Slot.value hslot
  have hleft : evaluateNode (n + 1) (.var sum) c ((s.withMeter m₁).withMeter m₂) =
      (.value (.str text), s.withMeter m₃) := by
    rw [← hsum]
    exact evaluateNode_of_enterNode h₃ n (.var sum) c
  have hright : evaluateNode (n + 1) (.var x) c (s.withMeter m₃) =
      (.value (.char u), s.withMeter m₄) := by
    rw [← hx]
    exact evaluateNode_of_enterNode h₄ n (.var x) c
  have hbinary : eval (.binary .add (.var sum) (.var x)) c (evaluator (n + 2)) (s.withMeter m₁) =
      (.value (.str (text ++ Units.toText u)), s.withMeter m₄) := by
    show evaluateNode (n + 2) _ c _ = _
    rw [evaluateNode_binary rfl (h₂ _) hleft hright]
    exact applyBinary_add_char (Nat.succ_pos n) text u
  refine ⟨m₄, ?_, haffords₄⟩
  rw [evaluateNode_of_enterNode h₁]
  show evalAssign sum (.binary .add (.var sum) (.var x)) c (evaluator (n + 2)) _ = _
  rw [evalAssign_of_lookup hbinary hlookup]
  exact store_any (s := s.withMeter m₄) hslot sum

/-- A round adds its char. -/
theorem itemRound_addTo (hx : sum ≠ x) (hs : s.Sums scope slot sum text (nodes + 4))
    (rest : List Value) :
    ∃ t, itemRound x (.addTo sum x) scope (.char u) rest (evaluator (n + 3)) s = (.value none, t) ∧
      t.Sums scope slot sum (text ++ Units.toText u) nodes := by
  let h := s.heap.roundScope scope x (.char u)
  have hfilled : (⟨.any, .str text, true⟩ : Slot) ≠ default := nofun
  have hlt : slot < s.heap.slots.size := Heap.lt_of_slot_ne (hs.slot ▸ hfilled)
  -- the scope of the round binds the item alone, so the sum is found further out
  have hlookup : h.lookup s.heap.scopes.size sum = some slot := by
    rw [Heap.lookup_roundScope hx, hs.lookup]
  have hslot : h.slot slot = ⟨.any, .str text, true⟩ := by
    rw [Heap.slot_roundScope hlt, hs.slot]
  have hbegun : (s.withHeap h).Affords (nodes + 4) := ⟨hs.affords.unmarked, hs.affords.budget⟩
  obtain ⟨m, hbody, haffords⟩ :=
    evaluateNode_addTo (n := n) (s := s.withHeap h) hlookup hslot Heap.read_roundScope hbegun
  refine ⟨((s.withHeap h).withMeter m).withHeap (h.setValue slot (.str (text ++ Units.toText u))),
    ?_, ?_⟩
  · show mapOutcome roundEnd (mapOutcome (passedBy _) (eval (.addTo sum x) s.heap.scopes.size))
      (evaluator (n + 3)) (s.withHeap h) = _
    rw [mapOutcome, mapOutcome,
      show eval (.addTo sum x) s.heap.scopes.size (evaluator (n + 3)) (s.withHeap h) = _ from hbody]
    rfl
  · constructor
    case lookup => exact (Heap.lookup_outside_roundScope hx hs.known).trans hs.lookup
    case slot => exact Heap.slot_setValue_self hslot (Heap.lt_of_slot_ne (hslot ▸ hfilled))
    case known =>
      show scope < ((s.heap.scopes.push _).modify _ _).size
      rw [Array.size_modify, Array.size_push]
      exact Nat.lt_succ_of_lt hs.known
    case calm => exact hs.calm
    case affords => exact ⟨haffords.unmarked, haffords.budget⟩

/-- What the text and the chars that are left make up stays the same from round to round. -/
theorem itemRound_makesUp {whole : String} {v : Value} {rest : List Value} (hx : sum ≠ x)
    (hs : s.MakesUp scope slot sum whole (v :: rest)) :
    ∃ t, itemRound x (.addTo sum x) scope v rest (evaluator (n + 3)) s = (.value none, t) ∧
      t.MakesUp scope slot sum whole rest := by
  obtain ⟨us, text, hitems, hwhole, hsums⟩ := hs
  cases us with
  | nil => cases hitems
  | cons u us =>
    cases hitems
    obtain ⟨t, hround, ht⟩ := itemRound_addTo hx hsums (us.map Value.char)
    refine ⟨t, hround, us, _, rfl, ?_, ht⟩
    rw [← hwhole, Units.append_toText]

/-- A loop over a string adds up its chars. -/
theorem evaluateNode_forEach_addTo {fuel : Nat} {word : String} (hx : sum ≠ x)
    (hfuel : (Units.chars word).length + 4 ≤ fuel)
    (hs : s.Sums scope slot sum "" (4 * (Units.chars word).length + 2)) :
    ∃ t, evaluateNode fuel (.forEach x (.literal (.str word)) (.addTo sum x)) scope s =
        (.value .null, t) ∧ t.Sums scope slot sum (Units.shownText word) 0 := by
  rw [Units.length_chars] at hs
  obtain ⟨n, rfl⟩ : ∃ n, fuel = n + 3 + 1 := ⟨fuel - 4, by omega⟩
  obtain ⟨m₁, h₁, haffords₁⟩ := enterNode_affords hs.affords
  obtain ⟨m₂, h₂, haffords₂⟩ := enterNode_affords haffords₁
  have hword : eval (.literal (.str word)) scope (evaluator (n + 3)) (s.withMeter m₁) =
      (.value (.str word), s.withMeter m₂) :=
    evaluateNode_of_enterNode h₂ (n + 2) (.literal (.str word)) scope
  -- nothing has been added to the text yet, and all chars are left
  have hbegun : (s.withMeter m₂).MakesUp scope slot sum (Units.shownText word)
      (Units.chars word) := by
    refine ⟨_, "", rfl, ?_, hs.lookup, hs.slot, hs.known, hs.calm, haffords₂⟩
    rw [String.empty_append, Units.map_toChar_ofString]
    rfl
  have hlength : (Units.chars word).length < n + 3 := by omega
  obtain ⟨t, hloop, us, text, hnil, hwhole, ht⟩ :=
    eachRounds_items (I := fun items t => t.MakesUp scope slot sum (Units.shownText word) items)
      (fun _ _ _ => itemRound_makesUp (n := n) hx) hlength hbegun
  obtain rfl : us = [] := List.map_eq_nil_iff.mp hnil.symm
  refine ⟨t, ?_, ?_⟩
  · rw [evaluateNode_of_enterNode h₁]
    show evalEach x (.literal (.str word)) (.addTo sum x) scope (evaluator (n + 3)) _ = _
    rw [evalEach_of_calm (s := s.withMeter m₁) hs.calm, bind_apply, hword]
    exact hloop
  · have htext : text = Units.shownText word := by simpa using hwhole
    rw [← htext]
    exact ht

end Exec

/-- **Walking a string loses nothing but the halves of pairs.**  A loop that adds the chars of a string to an
empty text gives the string with two replacement characters in place of every character beyond the basic
plane, and so do the chars at all places of the string, in order.  This is the string itself if and only if
there are no such characters. -/
theorem strings_walked (word : String) :
    (∀ fuel scope slot sum x (s : State), sum ≠ x → (Units.chars word).length + 4 ≤ fuel →
      s.Sums scope slot sum "" (4 * (Units.chars word).length + 2) →
      ∃ t, evaluateNode fuel (.forEach x (.literal (.str word)) (.addTo sum x)) scope s =
          (.value .null, t) ∧ t.heap.read scope sum = .str (Units.shownText word)) ∧
    (∀ (ev : Evaluator) (s : State), eachSource (.str word) ev s = (.value (.items (Units.chars word)), s)) ∧
    (∀ (keys : List Value) (ev : Evaluator) (s : State),
      keys.map Heap.integer? =
        (List.range (Units.chars word).length).map (fun i : Nat => some (i : Int)) →
      keys.mapM (fun key => indexGet (.str word) [key]) ev s = (.value (Units.chars word), s)) ∧
    (∀ (ev : Evaluator) (s : State), 0 < ev.fuel →
      (Units.chars word).foldlM (applyBinary .add) (.str "") ev s =
        (.value (.str (Units.shownText word)), s)) ∧
    (Units.shownText word = word ↔ ∀ c ∈ word.toList, c.toNat < 0x10000) := by
  refine ⟨fun fuel scope slot sum x s hx hfuel hs => ?_, fun ev s => rfl,
    fun keys ev s hkeys => mapM_indexGet_str hkeys, fun ev s hfuel => ?_, Units.shownText_eq_iff⟩
  · obtain ⟨t, hloop, ht⟩ := evaluateNode_forEach_addTo hx hfuel hs
    refine ⟨t, hloop, ?_⟩
    rw [Heap.read, ht.lookup]
    exact congrArg Slot.value ht.slot
  · rw [Units.chars, foldlM_add_chars hfuel, String.empty_append, Units.map_toChar_ofString]
    rfl

/-- A string of two characters, of which each is one unit. -/
theorem strings_walked_accented :
    let word := "aé"
    let chars := Units.chars word
    let s : State :=
      ⟨Heap.empty.newRoot.2.declare 0 "t" .any (.str ""), .empty, [], .blank 1 0 Host.bare⟩
    s.Sums 0 0 "t" "" (4 * chars.length + 2) ∧
    (∃ t, evaluateNode 6 (.forEach "c" (.literal (.str word)) (.addTo "t" "c")) 0 s = (.value .null, t) ∧
      t.heap.read 0 "t" = .str word) ∧
    eachSource (.str word) (evaluator 6) s = (.value (.items chars), s) ∧
    [Value.int 0, .long 1].mapM (fun key => indexGet (.str word) [key]) (evaluator 6) s =
      (.value chars, s) ∧
    chars.foldlM (applyBinary .add) (.str "") (evaluator 6) s = (.value (.str word), s) := by
  intro word chars s
  have hsums : s.Sums 0 0 "t" "" (4 * chars.length + 2) :=
    ⟨by decide, by decide, by decide, rfl, rfl, by decide⟩
  obtain ⟨hloop, hsource, hplaces, hsum, hbasic⟩ := strings_walked word
  have hword : Units.shownText word = word := hbasic.mpr (by simp [word])
  obtain ⟨t, hend, ht⟩ := hloop 6 0 0 "t" "c" s (by decide) (by decide) hsums
  have htotal := hsum (evaluator 6) s (by decide)
  rw [hword] at ht htotal
  exact ⟨hsums, ⟨t, hend, ht⟩, hsource _ _, hplaces _ _ _ (by decide), htotal⟩

/-- A character beyond the basic plane is walked in two halves, which add up to something else. -/
theorem strings_walked_in_halves :
    let word := "😀"
    let chars := Units.chars word
    let s : State := ⟨.empty, .empty, [], .blank 1 0 Host.bare⟩
    chars = [.char 0xd83d, .char 0xde00] ∧
    eachSource (.str word) (evaluator 1) s = (.value (.items chars), s) ∧
    [Value.int 0, .int 1].mapM (fun key => indexGet (.str word) [key]) (evaluator 1) s =
      (.value chars, s) ∧
    chars.foldlM (applyBinary .add) (.str "") (evaluator 1) s = (.value (.str "\ufffd\ufffd"), s) ∧
    "\ufffd\ufffd" ≠ word := by
  intro word chars s
  have hshown : (Units.ofString word).map Units.toChar = ['\ufffd', '\ufffd'] := by decide
  refine ⟨by decide, rfl, mapM_indexGet_str (by decide), ?_, by decide⟩
  show (Units.chars word).foldlM (applyBinary .add) (.str "") (evaluator 1) s = _
  rw [Units.chars, foldlM_add_chars (by decide), hshown]
  rfl

end TreeScript
