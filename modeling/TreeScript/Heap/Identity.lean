import TreeScript.Heap.Basic

/-!
# Identity numbers

Programs may ask for a number that identifies a value.  Storage answers with the number of its own; a
value without storage answers with a digest of its kind and content, so that equal content of one
kind has equal numbers.  A reference is followed to the value in its slot, through a limited number of
references.
-/

namespace TreeScript

/-- A digest of a text: each character is mixed in with an exclusive or and a multiplication. -/
def digest (s : String) : UInt64 :=
  s.toList.foldl (fun n c => (n ^^^ c.toNat.toUInt64) * 0x100000001b3) 0xcbf29ce484222325

/-- A text that tells kind and content of a value without storage. -/
def Value.contentText (v : Value) : String :=
  v.kindName ++ ":" ++
    match v with
    | .bool b => toString b
    | .byte n => toString n.toInt
    | .short n => toString n.toInt
    | .char c => toString c.toNat
    | .int n => toString n.toInt
    | .long n => toString n.toInt
    | .float x => toString x.bits.toNat
    | .double x => toString x.bits.toNat
    | .str s => s
    | _ => ""

namespace Heap

/-- The value at the end of at most `n` references. -/
def follow (h : Heap) : Nat → Value → Value
  | n + 1, .ref i => h.follow n (h.valueAt i)
  | _, v => v

/-- How many references are followed before an identity number is taken. -/
def referenceLimit : Nat := 16

/-- The identity number of a value. -/
def identity (h : Heap) (v : Value) : UInt64 :=
  let v := h.follow referenceLimit v
  match v.address? with
  | some n => n.toUInt64
  | none => digest v.contentText

end Heap
end TreeScript
