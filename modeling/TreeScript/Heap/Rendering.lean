import TreeScript.Heap.Basic
import TreeScript.Number.Notation

/-!
# Rendering

The text of a value.  Lists and maps render as compact JSON, with strings and chars inside them
quoted; arrays render as a bracketed row with blanks, and what is inside them is not quoted; a
reference renders as its value.  How an object renders depends on who asks, so `Heap.shape` says what
a value's text is made of, and rendering fills in the parts.  `Heap.render` runs no code of the
program: an object is shown as its class and the number of its storage.

A structure that contains itself has no text.  A path through the heap that passes more containers and
slots than there are comes back to where it was, so that many levels are enough for every other structure,
with one for a slot that is not there and one for what no path goes on from.
-/

namespace TreeScript

/-- What the text of a value is made of. -/
inductive TextShape where
  | text (s : String)
  /-- The text of an object. -/
  | object (id : Nat)
  /-- The text of another value. -/
  | same (v : Value)
  /-- The texts of elements between brackets. -/
  | row (separator : String) (nested : Bool) (items : List Value)
  /-- The texts of entries between braces. -/
  | entries (entries : List (Value × Value))

namespace Heap

/-- The label of storage that has no text of its own: a name and the storage's number. -/
def label (name : String) (v : Value) : String :=
  name ++ "@" ++ String.ofList (Quoted.hex (v.address?.getD 0))

/-- The text of a char or string, quoted or not. -/
def quoteIf (nested : Bool) (s : String) : String := if nested then Quoted.json s else s

/-- What the text of a value is made of; `nested` says whether it stands in a list or map. -/
def shape (h : Heap) (v : Value) (nested : Bool) : TextShape :=
  match v with
  | .null => .text "null"
  | .bool b => .text (if b then "true" else "false")
  | .byte n => .text (toString n.toInt)
  | .short n => .text (toString n.toInt)
  | .int n => .text (toString n.toInt)
  | .long n => .text (toString n.toInt)
  | .float x => .text x.scriptText
  | .double x => .text x.scriptText
  | .char c => .text (quoteIf nested (Units.toText c))
  | .str s => .text (quoteIf nested s)
  | .list i => .row "," true (h.sequence i).toList
  | .array i => .row ", " false (h.sequence i).toList
  | .map i => .entries (h.mapAt i).entries
  | .object i => .object i
  | .ref i => .same (h.valueAt i)
  | .callable _ | .coroutine _ => .text (label v.kindName v)

/-- The texts of elements, separated, between brackets. -/
def rowText (separator : String) (parts : List String) : String :=
  "[" ++ separator.intercalate parts ++ "]"

/-- The text of an entry: its key's text quoted, and its value's text. -/
def entryText (key value : String) : String := Quoted.json key ++ ":" ++ value

/-- The texts of entries, separated, between braces. -/
def entriesText (parts : List String) : String := "\x7b" ++ ",".intercalate parts ++ "\x7d"

/-- The label that an object is shown as when its class does not render it. -/
def objectLabel (h : Heap) (i : Nat) : String := label (h.classOf i).name (.object i)

/-- The text of a value down to a depth. -/
def renderTo (h : Heap) : Nat → Value → Bool → Option String
  | 0, _, _ => none
  | depth + 1, v, nested =>
    match h.shape v nested with
    | .text s => some s
    | .object i => some (h.objectLabel i)
    | .same w => h.renderTo depth w nested
    | .row separator inner items => do
      return rowText separator (← items.mapM (h.renderTo depth · inner))
    | .entries es => do
      return entriesText (← es.mapM fun (k, w) =>
        return entryText (← h.renderTo depth k false) (← h.renderTo depth w true))

/-- More levels than a path through the heap has without coming back to where it was. -/
def depthBound (h : Heap) : Nat := h.sequences.size + h.maps.size + h.slots.size + 2

/-- The text of a value; no code of the program runs. -/
def render (h : Heap) (v : Value) : Checked String := .ofEnding (h.renderTo h.depthBound v false)

/-! ## Diagnostics -/

/-- The text of a callable in a diagnostic. -/
def callableDebug : Callable → String
  | .function f => "Callable::Function(" ++ f.name ++ ")"
  | .lambda params _ _ => "Callable::Lambda(" ++ toString params.length ++ " params)"
  | .deferred expr _ => "Callable::Deferred(" ++ expr.kindName ++ ")"

/-- The text of a value in a diagnostic, down to a depth. -/
def debugTo (h : Heap) : Nat → Value → Option String
  | 0, _ => none
  | depth + 1, v =>
    let row (name : String) (i : Nat) : Option String := do
      let parts ← (h.sequence i).toList.mapM (h.debugTo depth)
      return name ++ "(" ++ rowText ", " parts ++ ")"
    match v with
    | .null => some "Null"
    | .bool b => some ("Bool(" ++ toString b ++ ")")
    | .byte n => some ("Byte(" ++ toString n.toInt ++ ")")
    | .short n => some ("Short(" ++ toString n.toInt ++ ")")
    | .char c => some ("Char(" ++ toString c.toNat ++ ")")
    | .int n => some ("Int(" ++ toString n.toInt ++ ")")
    | .long n => some ("Long(" ++ toString n.toInt ++ ")")
    | .float x => some ("Float(" ++ x.plainText ++ ")")
    | .double x => some ("Double(" ++ x.plainText ++ ")")
    | .str s => some ("Str(" ++ Quoted.shown s ++ ")")
    | .list i => row "List" i
    | .array i => row "Array" i
    | .map i => some ("Map(len=" ++ toString (h.mapAt i).size ++ ")")
    | .object i => some ("Object(" ++ (h.classOf i).name ++ ")")
    | .callable i => some (callableDebug (h.callable i))
    | .ref i => (h.debugTo depth (h.valueAt i)).map fun s => "Ref(" ++ s ++ ")"
    | .coroutine i => some ("Coroutine(" ++ (h.coroutine i).state.debugText ++ ")")

/-- The text of a value in a diagnostic. -/
def debug (h : Heap) (v : Value) : Checked String := .ofEnding (h.debugTo h.depthBound v)

end Heap
end TreeScript
