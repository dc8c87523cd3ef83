/-
What windows say.

Each window stands for a few events: an expression in place, the opening of a
block, the step to its other part, its closing; a comment stands for none.  Nothing
here depends on which blocks are open.  That a block closes under the name it was
opened with is a matter of the program the events build.
-/
import TemplateTree.Directive.Cut
import TemplateTree.Directive.Error

namespace TemplateTree

/-- A step in the building of a program. -/
inductive Event
  | text (text : String)
  | mustache (mustache : Mustache)
  | opening (expression : Expression)
  | otherwise
  | closing (name : String)
  deriving DecidableEq, Repr

/-- Reads an expression, the fault being the directive's. -/
def Expression.ofBody (body : List Char) : Except DirectiveFault Expression :=
  match Expression.read body with
  | .ok expression => .ok expression
  | .error fault => .error (.expression fault)

namespace Event

/-- The event of an expression in place. -/
def ofBody (escaped : Bool) (body : List Char) : Except DirectiveFault (List Event) := do
  let expression ← Expression.ofBody body
  .ok [.mustache ⟨expression, escaped⟩]

/-- A text is an event unless it is empty. -/
def ofText (text : List Char) : List Event :=
  if text = [] then [] else [.text (String.ofList text)]

end Event

/-- What a window between two braces says; the blanks around its body do not count.  The
first character decides, and a word that merely begins with `else` is a path. -/
def Window.plainEvents (body : List Char) : Except DirectiveFault (List Event) :=
  match body with
  | '!' :: _ => .ok []
  | '#' :: rest => do
    let expression ← Expression.ofBody rest
    .ok [.opening expression]
  | '^' :: rest =>
    if rest.all isBlank then .ok [.otherwise]
    else do
      let expression ← Expression.ofBody rest
      -- a block that has nothing but its other part
      .ok [.opening expression, .otherwise]
  | '/' :: rest => .ok [.closing (String.ofList (trim rest))]
  | '>' :: _ => .error .partialDirective
  | '&' :: rest => Event.ofBody false rest
  | body =>
    if body = "else".toList then .ok [.otherwise]
    else if startsWith "else " body then .error .chainedElse
    else Event.ofBody true body

/-- What a window says. -/
def Window.events (w : Window) : Except DirectiveFault (List Event) :=
  if w.triple then Event.ofBody false (trim w.body) else plainEvents (trim w.body)

/-- What a segment says: its text, then its window. -/
def Segment.events (s : Segment) : Except DirectiveFault (List Event) := do
  let events ← s.window.events
  .ok (Event.ofText s.text ++ events)

end TemplateTree
