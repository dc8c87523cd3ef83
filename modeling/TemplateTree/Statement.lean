/-
Programs: a template as its directives see it.

To the directives, markup is literal text.  A program is a row of statements: text,
an expression in place, or a block with a program of its own and perhaps a second
one for the other case.  A block without a second program differs from one whose
second program is empty, because the source said `else` in one and not in the other.
-/
import TemplateTree.Expression.Basic

namespace TemplateTree

/-- One step of a program. -/
inductive Statement
  | content (text : String)
  | mustache (mustache : Mustache)
  | block (expression : Expression) (body : List Statement) (inverse : Option (List Statement))
  deriving Inhabited

/-- A row of statements. -/
abbrev Program := List Statement

namespace Statement

/-- Adds a text to a program that is kept newest first.  An empty text leaves no trace,
and a text after a text becomes one with it: where a comment stood between them,
nothing is left to keep them apart. -/
def pushText (text : String) (program : Program) : Program :=
  if text = "" then program
  else
    match program with
    | .content last :: earlier => .content (last ++ text) :: earlier
    | program => .content text :: program

mutual

/-- A statement as JSON. -/
def toJson : Statement → Json
  | .content text => .object [("Content", .object [("value", .string text)])]
  | .mustache m => .object [("Mustache", m.toJson)]
  | .block expression body inverse =>
    .object [("Block", .object [
      ("expression", expression.toJson),
      ("program", .object [("statements", .array (itemsJson body))]),
      ("inverse", inverseJson inverse)])]

/-- The statements of a program as JSON. -/
def itemsJson : List Statement → List Json
  | [] => []
  | statement :: rest => statement.toJson :: itemsJson rest

/-- The program for the other case, or `null`. -/
def inverseJson : Option (List Statement) → Json
  | none => .null
  | some statements => .object [("statements", .array (itemsJson statements))]

end

/-- A program as JSON. -/
def programJson (program : Program) : Json :=
  .object [("statements", .array (itemsJson program))]

/-- An empty text changes no program. -/
@[simp] theorem pushText_empty (program : Program) : pushText "" program = program := by
  simp [pushText]

end Statement

end TemplateTree
