/-!
# Code units of UTF-16

A `char` value is one code unit of UTF-16, so characters beyond the first plane count as two.  The
unit of such a half has no text of its own and is shown as the replacement character.
-/

namespace TreeScript.Units

/-- The code units of one character: itself, or a high and a low surrogate. -/
def ofChar (c : Char) : List UInt16 :=
  let n := c.toNat
  if n < 0x10000 then [n.toUInt16]
  else [(0xd800 + (n - 0x10000) / 0x400).toUInt16, (0xdc00 + (n - 0x10000) % 0x400).toUInt16]

/-- The code units of a text. -/
def ofString (s : String) : List UInt16 := s.toList.flatMap ofChar

/-- Whether a unit is half of a pair. -/
def isSurrogate (unit : UInt16) : Bool := 0xd800 ≤ unit ∧ unit ≤ 0xdfff

/-- The character shown for a single unit. -/
def toChar (unit : UInt16) : Char :=
  if isSurrogate unit then '\ufffd' else Char.ofNat unit.toNat

/-- The text of a single unit. -/
def toText (unit : UInt16) : String := String.singleton (toChar unit)

/-- A character of the first plane is a single unit. -/
theorem ofChar_of_lt {c : Char} (h : c.toNat < 0x10000) : ofChar c = [c.toNat.toUInt16] := by
  simp [ofChar, h]

/-- No text is without units but the empty one. -/
theorem ofString_eq_nil {s : String} : ofString s = [] ↔ s = "" := by
  constructor
  · intro h
    have : s.toList = [] := by
      cases hs : s.toList with
      | nil => rfl
      | cons c cs =>
        simp only [ofString, hs, List.flatMap_cons, List.append_eq_nil_iff] at h
        have := h.1
        simp only [ofChar] at this
        split at this <;> simp at this
    simpa using this
  · rintro rfl
    rfl

end TreeScript.Units
