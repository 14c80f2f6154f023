import TreeScript.Eval.Hooks
import TreeScript.Ast.Numbering

/-!
# Templates

A template is text with expressions in it: a dollar sign before an opening brace begins an expression,
which ends at the next closing brace.  A backslash before a dollar sign makes the dollar sign text;
every other backslash and dollar sign is text as it is.
-/

namespace TreeScript

/-- A part of a template. -/
inductive Segment where
  | text (s : String)
  /-- The source of an expression, without the blanks around it. -/
  | source (s : String)
  deriving DecidableEq, Repr, Inhabited

namespace Template

/-- The characters up to a closing brace, and those after it. -/
def untilBrace : List Char → Option (List Char × List Char)
  | [] => none
  | c :: cs => if c = '\x7d' then some ([], cs) else (untilBrace cs).map fun (a, b) => (c :: a, b)

/-- What follows a closing brace is shorter than what was searched. -/
theorem untilBrace_length {cs a b : List Char} (h : untilBrace cs = some (a, b)) :
    b.length < cs.length := by
  induction cs generalizing a with
  | nil => simp [untilBrace] at h
  | cons c cs ih =>
    simp only [untilBrace] at h
    split at h
    · simp only [Option.some.injEq, Prod.mk.injEq] at h
      simp [← h.2]
    · simp only [Option.map_eq_some_iff, Prod.mk.injEq] at h
      obtain ⟨⟨x, y⟩, hy, -, rfl⟩ := h
      have : y.length < cs.length := ih hy
      simp only [List.length_cons]
      omega

/-- The text collected so far, in reverse, as a segment in front of others. -/
def flush (text : List Char) (rest : List Segment) : List Segment :=
  if text.isEmpty then rest else .text (String.ofList text.reverse) :: rest

/-- The segments of a template after text collected in reverse; nothing if an expression has no
end. -/
def split? (text : List Char) (cs : List Char) : Option (List Segment) :=
  match cs with
  | [] => some (flush text [])
  | '\\' :: '$' :: rest => split? ('$' :: text) rest
  | '$' :: '\x7b' :: rest =>
    match h : untilBrace rest with
    | none => none
    | some (source, rest') =>
      have := untilBrace_length h
      (split? [] rest').map fun segments =>
        flush text (.source (String.ofList (Blank.trim source)) :: segments)
  | c :: rest => split? (c :: text) rest
termination_by cs.length
decreasing_by all_goals simp_wf; try omega

/-- The segments of a template; nothing if an expression has no end. -/
def segments? (template : String) : Option (List Segment) := split? [] template.toList

end Template

namespace Exec

/-- Read the source of an expression in a template, giving its call sites memory cells of their own. -/
def parseExpression (source : String) : Exec Node := do
  match ← session (·.parser?) with
  | none => fail .interpolationUnavailable
  | some parse =>
    match parse source with
    | .ok e => fun _ s =>
      let (e, next) := e.numbered s.sites.next
      (.value e, { s with sites := s.sites.reserve next })
    | .error message =>
      raise (.error ((EvalError.of (.custom message)).withNote
        ("in interpolation `$\x7b" ++ source ++ "\x7d`")))

/-- The text of a segment of a template. -/
def segmentText (scope : Nat) : Segment → Exec String
  | .text s => pure s
  | .source source => do
    let e ← parseExpression source
    stringify (← eval e scope)

/-- Evaluate a template. -/
def evalTemplate (template : String) (scope : Nat) : Exec Value := do
  match Template.segments? template with
  | none => fail (.custom ("unterminated interpolation in \"" ++ template ++ "\""))
  | some segments => return .str (String.join (← segments.mapM (segmentText scope)))

end Exec
end TreeScript
