import Mathlib.Data.List.Chain
import Mathlib.Data.List.DropRight
import TreeScript.Eval.Template

/-
# Writing templates

A list of texts and expressions is written as a template by a backslash before every dollar sign of its
texts, and a dollar sign and braces around its expressions.  Splitting the template gives the list back,
but for one thing.  The backslash makes the dollar sign after it text, and nothing makes a backslash text
before a dollar sign, so that a text which ends in a backslash takes the expression after it for text.  No
template at all is split into such a list (`Template.Writable`).

The characters are read one after the other.  Three things may begin where a character stands: an escaped
dollar sign, an expression, or text; each of them has its own equation below.
-/

namespace TreeScript

/-! ## Writing -/

namespace Template

/-- The characters of a text as they stand in a template. -/
def escape (cs : List Char) : List Char := cs.flatMap fun c => if c = '$' then ['\\', '$'] else [c]

/-- The characters of a segment as they stand in a template. -/
def written : Segment → List Char
  | .text s => escape s.toList
  | .source s => '$' :: '\x7b' :: s.toList ++ ['\x7d']

/-- The template of a list of segments. -/
def write (segments : List Segment) : String := String.ofList (segments.flatMap written)

/-- Texts are not empty; expressions have no blanks around them and no closing brace in them. -/
def Proper : Segment → Prop
  | .text s => s ≠ ""
  | .source s => Blank.trim s.toList = s.toList ∧ '\x7d' ∉ s.toList

/-- A segment may stand directly before another: no text before a text, and none that ends in a backslash
before an expression. -/
def MayPrecede : Segment → Segment → Prop
  | .text _, .text _ => False
  | .text s, .source _ => s.toList.getLast? ≠ some '\\'
  | .source _, _ => True

/-- A list of segments that can be written as a template. -/
structure Writable (segments : List Segment) : Prop where
  proper : ∀ segment ∈ segments, Proper segment
  chain : segments.IsChain MayPrecede

/-- An expression begins somewhere and does not end: a dollar sign stands before an opening brace and not
after a backslash, and no closing brace comes after them. -/
def Unclosed (cs : List Char) : Prop :=
  ∃ before after, cs = before ++ '$' :: '\x7b' :: after ∧ before.getLast? ≠ some '\\' ∧ '\x7d' ∉ after

variable {cs p text source rest : List Char} {c : Char} {segments : List Segment}

/-! ## What a template begins with -/

theorem untilBrace_eq_none : untilBrace cs = none ↔ '\x7d' ∉ cs := by
  induction cs with
  | nil => simp [untilBrace]
  | cons c cs ih =>
    rw [untilBrace]
    by_cases hc : c = '\x7d'
    · simp [hc]
    · simp [hc, ih, Ne.symm hc]

theorem untilBrace_append (hsource : '\x7d' ∉ source) :
    untilBrace (source ++ '\x7d' :: rest) = some (source, rest) := by
  induction source with
  | nil => simp [untilBrace]
  | cons c source ih =>
    rw [List.mem_cons, not_or] at hsource
    rw [List.cons_append, untilBrace, if_neg (Ne.symm hsource.1), ih hsource.2]
    rfl

theorem eq_of_untilBrace (h : untilBrace cs = some (source, rest)) :
    cs = source ++ '\x7d' :: rest ∧ '\x7d' ∉ source := by
  induction cs generalizing source with
  | nil => cases h
  | cons c cs ih =>
    rw [untilBrace] at h
    split at h
    -- the brace is the first character
    · rename_i hc
      cases h
      exact ⟨by rw [hc]; rfl, List.not_mem_nil⟩
    · rename_i hc
      obtain ⟨⟨source, rest⟩, hbrace, heq⟩ := Option.map_eq_some_iff.mp h
      cases heq
      obtain ⟨rfl, hsource⟩ := ih hbrace
      exact ⟨rfl, List.not_mem_cons_of_ne_of_not_mem (Ne.symm hc) hsource⟩

theorem split?_escaped : split? text ('\\' :: '$' :: rest) = split? ('$' :: text) rest := by
  rw [split?]

theorem split?_unclosed (hbrace : '\x7d' ∉ rest) : split? text ('$' :: '\x7b' :: rest) = none := by
  rw [split?]
  split
  · rfl
  · rename_i hsome
    rw [untilBrace_eq_none.mpr hbrace] at hsome
    cases hsome

theorem split?_source (hsource : '\x7d' ∉ source) :
    split? text ('$' :: '\x7b' :: (source ++ '\x7d' :: rest)) =
      (split? [] rest).map fun segments =>
        flush text (.source (String.ofList (Blank.trim source)) :: segments) := by
  rw [split?]
  split
  · rename_i hbrace
    rw [untilBrace_append hsource] at hbrace
    cases hbrace
  · rename_i hbrace
    rw [untilBrace_append hsource] at hbrace
    cases hbrace
    rfl

theorem split?_cons (hescaped : ∀ after, c = '\\' → rest ≠ '$' :: after)
    (hsource : ∀ after, c = '$' → rest ≠ '\x7b' :: after) :
    split? text (c :: rest) = split? (c :: text) rest := by
  rw [split?]
  · exact hescaped
  · exact hsource

/-! ## Failures -/

theorem not_unclosed_nil : ¬ Unclosed [] := by
  rintro ⟨before, after, hcs, _⟩
  cases before <;> cases hcs

theorem getLast?_ne_of_append {a : Char} (h : (p ++ cs).getLast? ≠ some a) : cs.getLast? ≠ some a := by
  intro hlast
  apply h
  rw [List.getLast?_append, hlast]
  rfl

/-- An expression that does not end goes on after what stands before. -/
theorem Unclosed.append (h : Unclosed rest) (hp : p.getLast? ≠ some '\\') : Unclosed (p ++ rest) := by
  obtain ⟨before, after, rfl, hbefore, hafter⟩ := h
  refine ⟨p ++ before, after, by rw [List.append_assoc], ?_, hafter⟩
  rw [List.getLast?_append]
  cases hlast : before.getLast? with
  | none => exact hp
  | some c =>
    rw [hlast] at hbefore
    exact hbefore

/-- An expression that does not end begins after the last closing brace. -/
theorem Unclosed.of_brace (h : Unclosed (p ++ '\x7d' :: rest)) : Unclosed rest := by
  obtain ⟨before, after, hcs, hbefore, hafter⟩ := h
  rcases List.append_eq_append_iff.mp hcs with ⟨mid, rfl, hmid⟩ | ⟨mid, rfl, hmid⟩
  · cases mid with
    | nil => cases hmid
    | cons c mid =>
      cases hmid
      exact ⟨mid, after, rfl, getLast?_ne_of_append (p := ['\x7d']) (getLast?_ne_of_append hbefore),
        hafter⟩
  · have hmem : '\x7d' ∈ '$' :: '\x7b' :: after := by
      rw [hmid]
      simp
    simp [hafter] at hmem

/-- A dollar sign after a backslash begins no expression. -/
theorem unclosed_escaped_iff : Unclosed ('\\' :: '$' :: rest) ↔ Unclosed rest := by
  constructor
  · rintro ⟨before, after, hcs, hbefore, hafter⟩
    rcases before with _ | ⟨_, _ | ⟨_, before⟩⟩
    · cases hcs
    · cases hcs
      exact absurd rfl hbefore
    · cases hcs
      exact ⟨before, after, rfl, getLast?_ne_of_append (p := ['\\', '$']) hbefore, hafter⟩
  · intro h
    exact h.append (p := ['\\', '$']) (by decide)

/-- An expression that ends leaves what comes after it as it is. -/
theorem unclosed_source_iff : Unclosed ('$' :: '\x7b' :: (source ++ '\x7d' :: rest)) ↔ Unclosed rest := by
  constructor
  · intro h
    exact h.of_brace (p := '$' :: '\x7b' :: source)
  · intro h
    have hread : ('$' :: '\x7b' :: (source ++ ['\x7d'])).getLast? ≠ some '\\' := by
      rw [← List.cons_append, ← List.cons_append, List.getLast?_concat]
      decide
    simpa using h.append hread

/-- A character that begins nothing is a character of the text. -/
theorem unclosed_cons_iff (hescaped : ∀ after, c = '\\' → rest ≠ '$' :: after)
    (hsource : ∀ after, c = '$' → rest ≠ '\x7b' :: after) : Unclosed (c :: rest) ↔ Unclosed rest := by
  constructor
  · rintro ⟨before, after, hcs, hbefore, hafter⟩
    cases before with
    | nil =>
      cases hcs
      exact absurd rfl (hsource after rfl)
    | cons d before =>
      cases hcs
      exact ⟨before, after, rfl, getLast?_ne_of_append (p := [c]) hbefore, hafter⟩
  · rintro ⟨before, after, rfl, hbefore, hafter⟩
    refine ⟨c :: before, after, rfl, ?_, hafter⟩
    cases before with
    | nil =>
      intro heq
      cases heq
      exact hescaped _ rfl rfl
    | cons d before => rwa [List.getLast?_cons_cons]

/-- A template cannot be split if and only if an expression in it begins and does not end: by induction on what
is read off the template. -/
theorem split?_eq_none : split? text cs = none ↔ Unclosed cs := by
  induction text, cs using split?.induct with
  | case1 text =>
    rw [split?]
    exact iff_of_false nofun not_unclosed_nil
  | case2 text rest ih => rw [split?_escaped, ih, unclosed_escaped_iff]
  | case3 text rest hbrace =>
    have hclosing : '\x7d' ∉ rest := untilBrace_eq_none.mp hbrace
    exact iff_of_true (split?_unclosed hclosing) ⟨[], rest, rfl, nofun, hclosing⟩
  | case4 text rest source rest' hbrace hlt ih =>
    obtain ⟨rfl, hsource⟩ := eq_of_untilBrace hbrace
    rw [split?_source hsource, Option.map_eq_none_iff, ih, unclosed_source_iff]
  | case5 text c rest hescaped hsource ih =>
    rw [split?_cons hescaped hsource, ih, unclosed_cons_iff hescaped hsource]

/-! ## What templates are split into -/

/-- Blanks are trimmed once and for all. -/
theorem trim_trim (cs : List Char) : Blank.trim (Blank.trim cs) = Blank.trim cs := by
  have htrim : ∀ cs, Blank.trim cs = (cs.dropWhile Blank.isBlank).rdropWhile Blank.isBlank :=
    fun _ => rfl
  -- what is left begins as it did before the blanks at the end were dropped
  have hfront : (Blank.trim cs).dropWhile Blank.isBlank = Blank.trim cs := by
    rw [List.dropWhile_eq_self_iff]
    intro hpos
    have hstart : Blank.trim cs <+: cs.dropWhile Blank.isBlank := List.rdropWhile_prefix ..
    rw [hstart.getElem hpos]
    exact List.dropWhile_get_zero_not Blank.isBlank cs (Nat.lt_of_lt_of_le hpos hstart.length_le)
  rw [htrim (Blank.trim cs), hfront, htrim cs, List.rdropWhile_idempotent]

theorem mem_of_mem_trim (h : c ∈ Blank.trim cs) : c ∈ cs := by
  have hstart : Blank.trim cs <+: cs.dropWhile Blank.isBlank := List.rdropWhile_prefix ..
  exact (List.dropWhile_sublist _).mem (hstart.mem h)

/-- Text that was collected may stand in front. -/
theorem Writable.flush (h : Writable segments)
    (hmay : ∀ segment ∈ segments.head?, MayPrecede (.text (String.ofList text.reverse)) segment) :
    Writable (flush text segments) := by
  cases text with
  | nil => exact h
  | cons c text =>
    refine ⟨List.forall_mem_cons.mpr ⟨?_, h.proper⟩, List.isChain_cons.mpr ⟨hmay, h.chain⟩⟩
    intro hempty
    have hlength := congrArg String.length hempty
    simp at hlength

theorem mayPrecede_source (h : text.head? ≠ some '\\') (s : String) :
    MayPrecede (.text (String.ofList text.reverse)) (.source s) := by
  show (String.ofList text.reverse).toList.getLast? ≠ some '\\'
  rw [String.toList_ofList, List.getLast?_reverse]
  exact h

/-- What a template is split into can be written. -/
theorem writable_of_split? (hinv : text.head? = some '\\' → cs.head? ≠ some '$')
    (h : split? text cs = some segments) : Writable segments := by
  induction text, cs using split?.induct generalizing segments with
  | case1 text =>
    rw [split?] at h
    cases h
    exact Writable.flush ⟨nofun, .nil⟩ nofun
  | case2 text rest ih =>
    rw [split?_escaped] at h
    exact ih (by simp) h
  | case3 text rest hbrace =>
    rw [split?_unclosed (untilBrace_eq_none.mp hbrace)] at h
    cases h
  | case4 text rest source rest' hbrace hlt ih =>
    obtain ⟨rfl, hsource⟩ := eq_of_untilBrace hbrace
    rw [split?_source hsource] at h
    obtain ⟨segments, hrest, rfl⟩ := Option.map_eq_some_iff.mp h
    obtain ⟨hproper, hchain⟩ := ih nofun hrest
    have hsource' : Proper (.source (String.ofList (Blank.trim source))) := by
      show Blank.trim (String.ofList _).toList = (String.ofList _).toList ∧ _ ∉ (String.ofList _).toList
      rw [String.toList_ofList]
      exact ⟨trim_trim source, fun hmem => hsource (mem_of_mem_trim hmem)⟩
    apply Writable.flush
    · refine ⟨List.forall_mem_cons.mpr ⟨hsource', hproper⟩, List.isChain_cons.mpr ⟨?_, hchain⟩⟩
      exact fun _ _ => trivial
    · intro segment hsegment
      cases hsegment
      exact mayPrecede_source (fun hlast => hinv hlast rfl) _
  | case5 text c rest hescaped hsource ih =>
    rw [split?_cons hescaped hsource] at h
    -- a backslash before a dollar sign would have been read as an escape
    refine ih (fun hc hhead => ?_) h
    cases hc
    obtain ⟨after, rfl⟩ : ∃ after, rest = '$' :: after := List.head?_eq_some_iff.mp hhead
    exact hescaped after rfl rfl

/-! ## Splitting what was written -/

theorem escape_cons (c : Char) (cs : List Char) :
    escape (c :: cs) = (if c = '$' then ['\\', '$'] else [c]) ++ escape cs := rfl

/-- A text that is written begins with no dollar sign. -/
theorem escape_append_ne (hrest : cs = [] → rest.head? ≠ some '$') (after : List Char) :
    escape cs ++ rest ≠ '$' :: after := by
  intro heq
  cases cs with
  | nil =>
    apply hrest rfl
    rw [show rest = '$' :: after from heq]
    rfl
  | cons c cs =>
    rw [escape_cons] at heq
    split at heq
    · cases heq
    · rename_i hc
      cases heq
      exact hc rfl

/-- A text is read as it was written, unless it ends in a backslash and a dollar sign follows. -/
theorem split?_escape (hend : cs.getLast? = some '\\' → rest.head? ≠ some '$') :
    split? text (escape cs ++ rest) = split? (cs.reverse ++ text) rest := by
  induction cs generalizing text with
  | nil => rfl
  | cons c cs ih =>
    have hend' : cs.getLast? = some '\\' → rest.head? ≠ some '$' := by
      intro hlast
      apply hend
      rw [List.getLast?_cons, hlast]
      rfl
    rw [List.reverse_cons, List.append_assoc, List.singleton_append, ← ih hend', escape_cons]
    -- only dollar signs are escaped; no other character can begin anything in what is written
    by_cases hc : c = '$'
    · subst hc
      exact split?_escaped
    · rw [if_neg hc]
      refine split?_cons (fun after hc' => ?_) fun after hc' => absurd hc' hc
      apply escape_append_ne
      rintro rfl
      exact hend (by rw [hc']; rfl)

theorem flush_text {s : String} (hs : s ≠ "") (segments : List Segment) :
    flush (s.toList.reverse ++ []) segments = .text s :: segments := by
  have hne : (s.toList.reverse ++ []).isEmpty = false := by
    simpa using hs
  rw [flush, hne, if_neg Bool.false_ne_true, List.append_nil, List.reverse_reverse, String.ofList_toList]

/-- A list that can be written is what its template is split into, after text that may stand before
it. -/
theorem split?_written (hproper : ∀ segment ∈ segments, Proper segment)
    (hchain : segments.IsChain MayPrecede) (hmay : text ≠ [] → ∀ s, segments.head? ≠ some (.text s)) :
    split? text (segments.flatMap written) = some (flush text segments) := by
  induction segments generalizing text with
  | nil => rw [List.flatMap_nil, split?]
  | cons segment segments ih =>
    obtain ⟨hfirst, hothers⟩ := List.forall_mem_cons.mp hproper
    obtain ⟨hnext, hchain'⟩ := List.isChain_cons.mp hchain
    rw [List.flatMap_cons]
    cases segment with
    | text s =>
      obtain rfl : text = [] := by
        by_contra hne
        exact hmay hne s rfl
      -- what comes next is an expression, if anything
      have hend : s.toList.getLast? = some '\\' → (segments.flatMap written).head? ≠ some '$' := by
        intro hlast
        cases segments with
        | nil =>
          intro hhead
          cases hhead
        | cons next _ =>
          have hmay' := hnext next rfl
          cases next with
          | text _ => exact hmay'.elim
          | source _ => exact absurd hlast hmay'
      have hnot : ∀ s', segments.head? ≠ some (.text s') := fun s' hhead => hnext _ hhead
      rw [show written (.text s) = escape s.toList from rfl, split?_escape hend,
        ih hothers hchain' fun _ => hnot, flush_text hfirst]
      rfl
    | source s =>
      obtain ⟨htrim, hbrace⟩ := hfirst
      have hwritten : written (.source s) ++ segments.flatMap written =
          '$' :: '\x7b' :: (s.toList ++ '\x7d' :: segments.flatMap written) := by
        simp [written]
      have hrest : split? [] (segments.flatMap written) = some (flush [] segments) :=
        ih hothers hchain' fun h => absurd rfl h
      rw [hwritten, split?_source hbrace, hrest, htrim, String.ofList_toList]
      rfl

end Template

open Template

/-- **Splitting a template undoes writing it.**  A list of texts and expressions is what its template is split
into, if no text is empty, no two texts are adjacent, no text that ends in a backslash stands directly before
an expression, and the expressions have no blanks around them and no closing brace in them.  Every template
is split into such a list, unless an expression begins in it and does not end, which is the only failure. -/
theorem templates_split_as_written :
    (∀ segments, Writable segments → segments? (write segments) = some segments) ∧
    (∀ template segments, segments? template = some segments → Writable segments) ∧
    ∀ template, segments? template = none ↔ Unclosed template.toList := by
  refine ⟨fun segments hwritable => ?_, fun template segments h => ?_, fun template => ?_⟩
  · rw [segments?, write, String.toList_ofList,
      split?_written hwritable.proper hwritable.chain fun h => absurd rfl h]
    rfl
  · have hinv : ([] : List Char).head? = some '\\' → template.toList.head? ≠ some '$' := nofun
    exact writable_of_split? hinv h
  · exact split?_eq_none

/-- A text with a dollar sign, a backslash and braces, an expression that is empty, and a text that ends in a
backslash at the end of the template. -/
theorem templates_split_as_written_mixed :
    let segments : List Segment := [.text "\\$\x7b", .source "a + b", .source "", .text "\x7d$\\"]
    Writable segments ∧ write segments = "\\\\$\x7b$\x7ba + b\x7d$\x7b\x7d\x7d\\$\\" ∧
    segments? (write segments) = some segments ∧ ¬ Unclosed (write segments).toList := by
  intro segments
  have hwritable : Writable segments := by
    constructor
    · simp [segments, Proper]
      decide
    · simp [segments, MayPrecede]
  obtain ⟨hsplit, hsound, hfails⟩ := templates_split_as_written
  have hsegments := hsplit segments hwritable
  refine ⟨hsound _ _ hsegments, by decide, hsegments, fun hunclosed => ?_⟩
  rw [(hfails _).mpr hunclosed] at hsegments
  cases hsegments

/-- A text that ends in a backslash takes the expression after it for text. -/
theorem templates_misread_backslash :
    let segments : List Segment := [.text "\\", .source "x"]
    (∀ segment ∈ segments, Proper segment) ∧
    segments.IsChain (fun a b => ∀ s t, ¬ (a = .text s ∧ b = .text t)) ∧
    segments? (write segments) = some [.text "$\x7bx\x7d"] ∧ segments? (write segments) ≠ some segments := by
  intro segments
  have hsplit : segments? (write segments) = some [.text "$\x7bx\x7d"] := by
    have hlist : (write segments).toList = '\\' :: '$' :: (escape ['\x7b', 'x', '\x7d'] ++ []) := by
      decide
    rw [segments?, hlist, split?_escaped, split?_escape (by decide), split?]
    decide
  refine ⟨?_, by simp [segments], hsplit, ?_⟩
  · simp [segments, Proper]
    decide
  · rw [hsplit]
    decide

end TreeScript
