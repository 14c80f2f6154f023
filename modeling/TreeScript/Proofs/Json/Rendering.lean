import TreeScript.Proofs.Json.Grammar
import TreeScript.Proofs.Texts

/-
# Lists and maps as JSON

What has no counterpart in JSON apart, the text of a list or map is a document of JSON, and the value that
it is a document of is the one that corresponds to the list or map: element by element, and entry by entry in
the order of the entries (`lists_and_maps_are_documents`).

The text of a value inside a list or map spells its counterpart whatever follows it; so do those of the
elements and entries together, by which the text of a list or map is made.
-/

namespace TreeScript

namespace Json

open Reader

variable {s cs r : List Char} {t : String} {j : Json} {js : List Json} {texts : List String}

/-! ## Integers -/

theorem placeValue_toDigits (n : Nat) : placeValue (Nat.toDigits 10 n) = n := by
  rw [← digitsFrom_zero]
  exact Nat.ofDigitChars_toDigits (by decide) (by decide)

theorem isDigits_toDigits (n : Nat) : IsDigits (Nat.toDigits 10 n) :=
  ⟨Nat.toDigits_ne_nil, fun _ hc => Nat.isDigit_of_mem_toDigits (by decide) (by decide) hc⟩

theorem head?_toDigits {n : Nat} (hn : 0 < n) : (Nat.toDigits 10 n).head? ≠ some '0' := by
  induction n using Nat.strongRecOn with
  | ind n ih =>
    rw [Nat.toDigits_eq_if (by decide)]
    split
    · rename_i hlt
      intro hzero
      have hdigit : ∀ k < 10, 0 < k → Nat.digitChar k ≠ '0' := by decide
      exact hdigit n hlt hn (Option.some.inj hzero)
    · rename_i hle
      rw [List.head?_append_of_ne_nil _ Nat.toDigits_ne_nil]
      exact ih (n / 10) (by omega) (by omega)

theorem toDigits_leads (n : Nat) (hzero : (Nat.toDigits 10 n).head? = some '0') :
    Nat.toDigits 10 n = ['0'] := by
  rcases Nat.eq_zero_or_pos n with rfl | hn
  · rfl
  · exact absurd hzero (head?_toDigits hn)

/-- An integer as a number of JSON. -/
def Numeral.ofInt (n : ℤ) : Numeral where
  negative := n < 0
  whole := Nat.toDigits 10 n.natAbs
  fraction := none
  exponent := none
  isDigits := isDigits_toDigits n.natAbs
  leads := toDigits_leads n.natAbs

theorem Numeral.text_ofInt (n : ℤ) : (ofInt n).text = (toString n).toList := by
  have hrepr (k : Nat) : (Nat.repr k).toList = Nat.toDigits 10 k ++ [] := by
    rw [Nat.repr_eq_ofList_toDigits, String.toList_ofList, List.append_nil]
  cases n with
  | ofNat k => exact (hrepr k).symm
  | negSucc k =>
    have hsign : (ofInt (Int.negSucc k)).negative = true := decide_eq_true (Int.negSucc_lt_zero k)
    have hrender : (toString (Int.negSucc k)).toList = '-' :: (Nat.repr (k + 1)).toList := String.toList_append
    rw [text, hsign, hrender, hrepr]
    rfl

theorem Numeral.value_ofInt (n : ℤ) : (ofInt n).value = n := by
  have hmantissa : (ofInt n).mantissa = n.natAbs := by
    show (placeValue (Nat.toDigits 10 n.natAbs) : ℚ) + 0 = _
    rw [placeValue_toDigits, add_zero]
  have hvalue : (ofInt n).value = if n < 0 then -(n.natAbs : ℚ) else n.natAbs := by
    rw [value, hmantissa]
    exact (mul_one _).trans (if_congr decide_eq_true_iff rfl rfl)
  rw [hvalue]
  split
  · rename_i hn
    rw [Nat.cast_natAbs, abs_of_neg hn, Int.cast_neg, neg_neg]
  · rename_i hn
    rw [Nat.cast_natAbs, abs_of_nonneg (not_lt.mp hn)]

/-- A text that stands for a value whatever comes after it, as long as this does not go on a number. -/
def Spells (t : String) (j : Json) : Prop := ∀ r, Value (t.toList ++ r) j r

theorem spells_int (n : ℤ) : Spells (toString n) (.number n) := by
  intro r
  have h := Value.number (Numeral.ofInt n) (s := (toString n).toList ++ r) (r := r) (by rw [Numeral.text_ofInt])
  rwa [Numeral.value_ofInt] at h

/-! ## Strings -/

theorem hexDigit?_hexDigit : ∀ n < 16, hexDigit? (Quoted.hexDigit n) = some n := by decide

/-- A character as it is written in quoted text is read as that character. -/
theorem chars_jsonChar (c : Char) (h : Chars s cs r) : Chars (Quoted.jsonChar c ++ s) (c :: cs) r := by
  unfold Quoted.jsonChar
  -- the characters that have an escape of their own
  iterate 5
    split
    · rename_i hc
      subst hc
      exact .escape rfl h
  split
  · rename_i hlow
    have hunit : codeUnit? '0' '0' (Quoted.hexDigit (c.toNat / 16)) (Quoted.hexDigit (c.toNat % 16)) =
        some c.toNat := by
      have hzero : hexDigit? '0' = some 0 := rfl
      rw [codeUnit?, hzero, hexDigit?_hexDigit _ (by omega), hexDigit?_hexDigit _ (by omega)]
      exact congrArg some (by show (0 * 16 + 0) * 256 + (c.toNat / 16 * 16 + c.toNat % 16) = _; omega)
    have hchars := Chars.unit hunit (Or.inl (by omega)) h
    rwa [Char.ofNat_toNat] at hchars
  · rename_i hquote hslash _ _ _ hlow
    exact .plain ⟨hquote, hslash, Nat.le_of_not_lt hlow⟩ h

theorem chars_flatMap (cs r : List Char) : Chars (cs.flatMap Quoted.jsonChar ++ '\x22' :: r) cs r := by
  induction cs with
  | nil => exact .close
  | cons c cs ih =>
    rw [List.flatMap_cons, List.append_assoc]
    exact chars_jsonChar c ih

theorem toList_json (s : String) (r : List Char) :
    (Quoted.json s).toList ++ r = '\x22' :: (s.toList.flatMap Quoted.jsonChar ++ '\x22' :: r) := by
  rw [Quoted.json, String.toList_ofList, List.append_assoc]
  rfl

theorem spells_json (s : String) : Spells (Quoted.json s) (.string s) := by
  intro r
  rw [toList_json]
  have h := Value.string (chars_flatMap s.toList r)
  rwa [String.ofList_toList] at h

/-! ## Rows and entries -/

theorem Spells.element (h : Spells t j) (r : List Char) : Element (t.toList ++ r) j r :=
  .mk .none (h r) .none

/-- Texts joined by commas are read as what they are read as one by one. -/
theorem reads_intercalate {α : Type} {P : String → α → Prop} {Reads : List Char → List α → List Char → Prop}
    {close : Char} (hlast : ∀ {t a} r, P t a → Reads (t.toList ++ close :: r) [a] r)
    (hmore : ∀ {t a s as r}, P t a → Reads s as r → Reads (t.toList ++ ',' :: s) (a :: as) r) {as : List α}
    (h : List.Forall₂ P texts as) (hne : texts ≠ []) (r : List Char) :
    Reads ((",".intercalate texts).toList ++ close :: r) as r := by
  induction h with
  | nil => exact absurd rfl hne
  | cons ht hrest ih =>
    cases hrest with
    | nil =>
      rw [String.intercalate_singleton]
      exact hlast r ht
    | cons ht' hrest =>
      rw [String.intercalate_cons_cons, String.toList_append, String.toList_append, List.append_assoc,
        List.append_assoc]
      exact hmore ht (ih (List.cons_ne_nil _ _))

theorem items_intercalate (h : List.Forall₂ Spells texts js) (hne : texts ≠ []) (r : List Char) :
    Items ((",".intercalate texts).toList ++ ']' :: r) js r :=
  reads_intercalate (fun _ ht => .last (ht.element _)) (fun ht hs => .more (ht.element _) hs) h hne r

theorem spells_row (h : List.Forall₂ Spells texts js) : Spells (Heap.rowText "," texts) (.array js) := by
  intro r
  rw [Heap.rowText, String.toList_append, String.toList_append, List.append_assoc, List.append_assoc]
  cases h with
  | nil => exact .noItems .none
  | cons ht hrest => exact .items (items_intercalate (.cons ht hrest) (List.cons_ne_nil _ _) r)

/-- The text of an entry that stands for a member. -/
def SpellsMember (t : String) (m : String × Json) : Prop := ∃ value, t = Heap.entryText m.1 value ∧ Spells value m.2

theorem SpellsMember.member {m : String × Json} (h : SpellsMember t m) (r : List Char) :
    Member (t.toList ++ r) m r := by
  obtain ⟨value, rfl, hvalue⟩ := h
  have hname : Chars (m.1.toList.flatMap Quoted.jsonChar ++ '\x22' :: ':' :: (value.toList ++ r)) m.1.toList
      (':' :: (value.toList ++ r)) := chars_flatMap _ _
  have hmember := Member.mk .none hname .none (hvalue.element r)
  rw [String.ofList_toList] at hmember
  rw [Heap.entryText, String.toList_append, String.toList_append, List.append_assoc, List.append_assoc,
    toList_json]
  exact hmember

theorem members_intercalate {ms : List (String × Json)} (h : List.Forall₂ SpellsMember texts ms)
    (hne : texts ≠ []) (r : List Char) : Members ((",".intercalate texts).toList ++ '\x7d' :: r) ms r :=
  reads_intercalate (fun _ ht => .last (ht.member _)) (fun ht hs => .more (ht.member _) hs) h hne r

theorem spells_entries {ms : List (String × Json)} (h : List.Forall₂ SpellsMember texts ms) :
    Spells (Heap.entriesText texts) (.object ms) := by
  intro r
  rw [Heap.entriesText, String.toList_append, String.toList_append, List.append_assoc, List.append_assoc]
  cases h with
  | nil => exact .noMembers .none
  | cons ht hrest => exact .members (members_intercalate (.cons ht hrest) (List.cons_ne_nil _ _) r)

end Json

namespace Heap

variable {h : Heap} {v w : Value} {j : Json} {depth : Nat}

/-! ## Counterparts -/

/-- A value has a counterpart in JSON as far as it goes itself: no number with a fraction, array, reference,
object, callable or coroutine is one, and the keys of a map are strings. -/
def Portable (h : Heap) : Value → Prop
  | .null | .bool _ | .byte _ | .short _ | .int _ | .long _ | .char _ | .str _ | .list _ => True
  | .map i => ∀ e ∈ (h.mapAt i).entries, ∃ k, e.1 = .str k
  | _ => False

/-- The value of JSON that corresponds to a value: an integer is its number, a char its text, a list its
elements, and a map its entries in their order. -/
inductive Means (h : Heap) : Value → Json → Prop
  | null : Means h .null .null
  | bool (b : Bool) : Means h (.bool b) (.bool b)
  | byte (n : Int8) : Means h (.byte n) (.number n.toInt)
  | short (n : Int16) : Means h (.short n) (.number n.toInt)
  | int (n : Int32) : Means h (.int n) (.number n.toInt)
  | long (n : Int64) : Means h (.long n) (.number n.toInt)
  | char (c : UInt16) : Means h (.char c) (.string (Units.toText c))
  | str (s : String) : Means h (.str s) (.string s)
  | list {i : Nat} {js : List Json} :
      List.Forall₂ (Means h) (h.sequence i).toList js → Means h (.list i) (.array js)
  | map {i : Nat} {ms : List (String × Json)} :
      (h.mapAt i).entries.map Prod.fst = ms.map (fun m => .str m.1) →
      List.Forall₂ (Means h) ((h.mapAt i).entries.map Prod.snd) (ms.map Prod.snd) →
      Means h (.map i) (.object ms)

theorem exists_forall₂ {α β : Type} {R : α → β → Prop} {as : List α} (h : ∀ a ∈ as, ∃ b, R a b) :
    ∃ bs, List.Forall₂ R as bs := by
  induction as with
  | nil => exact ⟨[], .nil⟩
  | cons a as ih =>
    obtain ⟨b, hb⟩ := h a List.mem_cons_self
    obtain ⟨bs, hbs⟩ := ih fun a ha => h a (List.mem_cons_of_mem _ ha)
    exact ⟨b :: bs, .cons hb hbs⟩

theorem forall₂_of_mem {α β : Type} {R S : α → β → Prop} {as : List α} {bs : List β} (h : List.Forall₂ R as bs)
    (hRS : ∀ a ∈ as, ∀ b, R a b → S a b) : List.Forall₂ S as bs := by
  induction h with
  | nil => exact .nil
  | cons ha _ ih =>
    exact .cons (hRS _ List.mem_cons_self _ ha) (ih fun a hmem => hRS a (List.mem_cons_of_mem _ hmem))

theorem forall₂_and {α β : Type} {R S : α → β → Prop} {as : List α} {bs : List β} (hR : List.Forall₂ R as bs)
    (hS : List.Forall₂ S as bs) : List.Forall₂ (fun a b => R a b ∧ S a b) as bs := by
  induction hR with
  | nil => exact .nil
  | cons ha _ ih =>
    cases hS with
    | cons ha' hS => exact .cons ⟨ha, ha'⟩ (ih hS)

/-- Entry by entry, a map and its counterpart. -/
def MeansEntry (h : Heap) (e : Value × Value) (m : String × Json) : Prop := e.1 = .str m.1 ∧ h.Means e.2 m.2

theorem means_map_iff {i : Nat} {ms : List (String × Json)} :
    h.Means (.map i) (.object ms) ↔ List.Forall₂ h.MeansEntry (h.mapAt i).entries ms := by
  constructor
  · intro hmeans
    cases hmeans with
    | map hkeys hvalues =>
      have hkeys := List.forall₂_eq_eq_eq ▸ hkeys
      exact forall₂_and (List.forall₂_map_left_iff.mp (List.forall₂_map_right_iff.mp hkeys))
        (List.forall₂_map_left_iff.mp (List.forall₂_map_right_iff.mp hvalues))
  · intro hms
    refine .map (List.forall₂_eq_eq_eq ▸ ?_) ?_
    · exact List.forall₂_map_left_iff.mpr (List.forall₂_map_right_iff.mpr (hms.imp fun _ _ hm => hm.1))
    · exact List.forall₂_map_left_iff.mpr (List.forall₂_map_right_iff.mpr (hms.imp fun _ _ hm => hm.2))

/-- What ends and has counterparts all through has one itself. -/
theorem exists_means (hends : h.Acyclic v) (hport : ∀ w, Leads h.parts v w → h.Portable w) :
    ∃ j, h.Means v j := by
  induction hends with
  -- by induction on how the value ends: its parts have counterparts already
  | intro v _ ih =>
    have hpart : ∀ w ∈ h.parts v, ∃ j, h.Means w j := fun w hw =>
      ih w hw fun u hu => hport u (.head hw hu)
    have hself := hport v .refl
    cases v with
    | null => exact ⟨_, .null⟩
    | bool b => exact ⟨_, .bool b⟩
    | byte n => exact ⟨_, .byte n⟩
    | short n => exact ⟨_, .short n⟩
    | int n => exact ⟨_, .int n⟩
    | long n => exact ⟨_, .long n⟩
    | char c => exact ⟨_, .char c⟩
    | str s => exact ⟨_, .str s⟩
    | list i =>
      obtain ⟨js, hjs⟩ := exists_forall₂ hpart
      exact ⟨_, .list hjs⟩
    | map i =>
      have hentry : ∀ e ∈ (h.mapAt i).entries, ∃ m, h.MeansEntry e m := by
        intro e he
        obtain ⟨k, hk⟩ := hself e he
        obtain ⟨j, hj⟩ := hpart e.2 (List.mem_flatMap.mpr ⟨e, he, by simp⟩)
        exact ⟨(k, j), hk, hj⟩
      obtain ⟨ms, hms⟩ := exists_forall₂ hentry
      exact ⟨_, means_map_iff.mpr hms⟩
    | _ => exact hself.elim

/-! ## Texts of counterparts -/

theorem exists_mapM {α β γ : Type} {f : α → Option β} {R : β → γ → Prop} {as : List α} {cs : List γ}
    (h : List.Forall₂ (fun a c => ∃ b, f a = some b ∧ R b c) as cs) :
    ∃ bs, as.mapM f = some bs ∧ List.Forall₂ R bs cs := by
  induction h with
  | nil => exact ⟨[], rfl, .nil⟩
  | cons ha _ ih =>
    obtain ⟨b, hb, hbc⟩ := ha
    obtain ⟨bs, hbs, hbcs⟩ := ih
    exact ⟨b :: bs, by rw [List.mapM_cons, hb, hbs]; rfl, .cons hbc hbcs⟩

/-- The text of a value in a list or map spells its counterpart. -/
theorem renderTo_spells (hends : EndsWithin h.parts depth v) (hmeans : h.Means v j) :
    ∃ t, h.renderTo depth v true = some t ∧ Json.Spells t j := by
  induction depth generalizing v j with
  | zero => exact hends.elim
  | succ depth ih =>
    cases hmeans with
    | null => exact ⟨_, rfl, fun _ => .null⟩
    | bool b => cases b <;> exact ⟨_, rfl, fun _ => by constructor⟩
    | byte n => exact ⟨_, rfl, Json.spells_int _⟩
    | short n => exact ⟨_, rfl, Json.spells_int _⟩
    | int n => exact ⟨_, rfl, Json.spells_int _⟩
    | long n => exact ⟨_, rfl, Json.spells_int _⟩
    | char c => exact ⟨_, rfl, Json.spells_json _⟩
    | str s => exact ⟨_, rfl, Json.spells_json _⟩
    | @list i js hjs =>
      obtain ⟨texts, htexts, hspells⟩ := exists_mapM (forall₂_of_mem hjs fun w hw k hk => ih (hends w hw) hk)
      refine ⟨rowText "," texts, ?_, Json.spells_row hspells⟩
      rw [renderTo, shape]
      dsimp only
      rw [htexts]
      rfl
    | @map i ms hkeys hvalues =>
      have hentry : ∀ e ∈ (h.mapAt i).entries, ∀ m, h.MeansEntry e m → ∃ t, (do
          return entryText (← h.renderTo depth e.1 false) (← h.renderTo depth e.2 true) : Option String) =
            some t ∧ Json.SpellsMember t m := by
        rintro ⟨key, w⟩ he ⟨k, j⟩ ⟨rfl, hw⟩
        have hparts : ∀ u ∈ [Value.str k, w], EndsWithin h.parts depth u := fun u hu =>
          hends u (List.mem_flatMap.mpr ⟨_, he, hu⟩)
        obtain ⟨t, ht, hspells⟩ := ih (hparts w (by simp)) hw
        refine ⟨entryText k t, ?_, t, rfl, hspells⟩
        -- the key is quoted by the entry, and not by its own text
        have hkey : h.renderTo depth (.str k) false = some k := by
          cases depth with
          | zero => exact (hparts _ List.mem_cons_self).elim
          | succ depth => rfl
        rw [hkey, ht]
        rfl
      obtain ⟨texts, htexts, hspells⟩ :=
        exists_mapM (forall₂_of_mem (means_map_iff.mp (.map hkeys hvalues)) hentry)
      refine ⟨entriesText texts, ?_, Json.spells_entries hspells⟩
      rw [renderTo, shape]
      dsimp only
      rw [htexts]
      rfl

/-- Quotes make no difference to a list or map. -/
theorem renderTo_nested (hv : (∃ i, v = .list i) ∨ ∃ i, v = .map i) (depth : Nat) (nested : Bool) :
    h.renderTo depth v nested = h.renderTo depth v true := by
  cases depth with
  | zero => rfl
  | succ depth => rcases hv with ⟨i, rfl⟩ | ⟨i, rfl⟩ <;> rfl

theorem Portable.labelled (hport : ∀ w, Leads h.parts v w → h.Portable w) : h.Labelled v :=
  fun i hi => (hport (.object i) hi).elim

end Heap

theorem Json.Spells.document {t : String} {j : Json} (h : Json.Spells t j) : Json.Document t.toList j := by
  have helement := h.element []
  rwa [List.append_nil] at helement

open Exec

/-- **Lists and maps render as JSON.**  A list or map that does not contain itself, and in which all is null,
a truth value, an integer, a char, a string, a list, or a map whose keys are strings, has one counterpart in
JSON: integers are numbers, a char is its text, a string itself, the elements of a list and the entries of a
map are in their order.  There is a text that it is rendered as, by a host and by an evaluation, and this text
is a document of the counterpart and of no other value. -/
theorem lists_and_maps_are_documents {fuel : Nat} {s : State} {v : Value}
    (hv : (∃ i, v = .list i) ∨ ∃ i, v = .map i) (hends : s.heap.Acyclic v)
    (hport : ∀ w, Leads s.heap.parts v w → s.heap.Portable w) (hfuel : s.heap.depthBound ≤ fuel) :
    ∃ j text, (∀ k, s.heap.Means v k ↔ k = j) ∧ s.heap.render v = .ok text ∧
      (stringify v).run fuel s = (.value text, s) ∧ ∀ k, Json.Document text.toList k ↔ k = j := by
  obtain ⟨j, hj⟩ := Heap.exists_means hends hport
  obtain ⟨text, htext, hspells⟩ := Heap.renderTo_spells hends.within hj
  rw [← Heap.renderTo_nested hv _ false] at htext
  have hdocument : ∀ k, Json.Document text.toList k ↔ k = j := fun k =>
    ⟨fun hk => hk.unique hspells.document, fun hk => hk ▸ hspells.document⟩
  refine ⟨j, text, fun k => ⟨fun hk => ?_, fun hk => hk ▸ hj⟩, ?_, ?_, hdocument⟩
  · -- the one text stands for what is meant
    obtain ⟨text', htext', hspells'⟩ := Heap.renderTo_spells hends.within hk
    rw [← Heap.renderTo_nested hv _ false, htext] at htext'
    cases htext'
    exact (hdocument k).mp hspells'.document
  · rw [Heap.render, htext]
    rfl
  · show stringify v (evaluator fuel) s = _
    rw [stringify_labelled hfuel (Heap.Portable.labelled hport), htext]
    rfl

/-- A list with a map in it, and in this an empty list. -/
def mixedHeap : Heap :=
  { Heap.empty with
    sequences := #[#[.null, .bool true, .long (-50), .char 0xd800, .str "a\x22\\\n\x01\u00e9", .map 0], #[]]
    maps := #[.ofList [(.str "k\t\x22", .list 1)]] }

/-- Where evaluations begin that find the list. -/
def mixedState : State := ⟨mixedHeap, .empty, [], .blank 0 0 Host.bare⟩

/-- Quotes, backslashes, control characters and half of a pair, in a string, a key and a char. -/
theorem lists_and_maps_are_documents_mixed :
    let text := "[null,true,-50,\x22\ufffd\x22,\x22a\\\x22\\\\\\n\\u0001\u00e9\x22," ++
      "\x7b\x22k\\t\\\x22\x22:[]\x7d]"
    mixedHeap.render (.list 0) = .ok text ∧ (stringify (.list 0)).run 20 mixedState = (.value text, mixedState) ∧
      Json.Document text.toList
        (.array [.null, .bool true, .number (-50), .string "\ufffd", .string "a\x22\\\n\x01\u00e9",
          .object [("k\t\x22", .array [])]]) := by
  intro text
  let points : List Value :=
    [.list 0, .null, .bool true, .long (-50), .char 0xd800, .str "a\x22\\\n\x01\u00e9", .map 0,
      .str "k\t\x22", .list 1]
  have hclosed : ∀ v ∈ points, ∀ w ∈ mixedHeap.parts v, w ∈ points := by decide
  have hport : ∀ v ∈ points, mixedHeap.Portable v := by
    have hkeys : (mixedHeap.mapAt 0).entries = [(.str "k\t\x22", .list 1)] := by decide
    simp [points, Heap.Portable, hkeys]
  have hends : mixedHeap.Acyclic (.list 0) := EndsWithin.ends (n := 4) (by decide)
  obtain ⟨j, text', hmeans, hrender, hstringify, hdocument⟩ :=
    @lists_and_maps_are_documents 20 mixedState (.list 0) (Or.inl ⟨0, rfl⟩) hends
      (fun w hw => hport w (hw.mem hclosed List.mem_cons_self)) (by decide)
  have htext : mixedHeap.render (.list 0) = .ok text := by decide +kernel
  rw [show mixedState.heap = mixedHeap from rfl, htext] at hrender
  cases hrender
  have hlong : mixedHeap.Means (.long (-50)) (.number (-50)) := by
    have hnumber : ((-50 : Int64).toInt : ℚ) = -50 := by
      rw [show (-50 : Int64).toInt = -50 from by decide]
      norm_num
    exact hnumber ▸ .long (-50)
  have hchar : mixedHeap.Means (.char 0xd800) (.string "\ufffd") := .char 0xd800
  have hinner : mixedHeap.Means (.map 0) (.object [("k\t\x22", .array [])]) :=
    Heap.means_map_iff.mpr (.cons ⟨rfl, .list .nil⟩ .nil)
  have hlist : mixedHeap.Means (.list 0)
      (.array [.null, .bool true, .number (-50), .string "\ufffd", .string "a\x22\\\n\x01\u00e9",
        .object [("k\t\x22", .array [])]]) :=
    .list (.cons .null (.cons (.bool true) (.cons hlong (.cons hchar (.cons (.str _) (.cons hinner .nil))))))
  exact ⟨htext, hstringify, (hdocument _).mpr ((hmeans _).mp hlist)⟩

end TreeScript
