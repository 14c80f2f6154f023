import TreeScript.Heap.Basic

/-!
# Structural equality

Two lists are structurally equal when they have the same length and structurally equal elements, two
maps when they have the same keys with structurally equal values; floats are compared as numbers, and
all else by kind and content or storage.  Containers are compared only while both sides are lists or
both are maps, so a comparison that goes deeper than there are pairs of containers has come back to a
pair that it was comparing and does not end.
-/

namespace TreeScript
namespace Heap

/-- Structural equality down to a depth. -/
def equalTo (h : Heap) : Nat → Value → Value → Option Bool
  | 0, _, _ => none
  | depth + 1, v, w =>
    match v, w with
    | .float x, .float y => some (x.equal y)
    | .double x, .double y => some (x.equal y)
    | .list i, .list j =>
      let xs := (h.sequence i).toList
      let ys := (h.sequence j).toList
      if i = j then some true
      else if xs.length ≠ ys.length then some false
      else (xs.zip ys).allM fun (x, y) => h.equalTo depth x y
    | .map i, .map j =>
      let m := h.mapAt i
      let n := h.mapAt j
      if i = j then some true
      else if m.size ≠ n.size then some false
      else m.entries.allM fun (k, x) =>
        match n.find? k with
        | some y => h.equalTo depth y x
        | none => some false
    | v, w => some (v == w)

/-- More levels than a comparison has without coming back to a pair of containers. -/
def pairBound (h : Heap) : Nat :=
  let containers := h.sequences.size + h.maps.size + 1
  containers * containers + 1

/-- Structural equality. -/
def structurallyEqual (h : Heap) (v w : Value) : Checked Bool :=
  .ofEnding (h.equalTo h.pairBound v w)

end Heap
end TreeScript
