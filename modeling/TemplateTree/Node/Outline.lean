/-
The outline of a tree.

One line a node, two blanks a level, for a person to read.  Blank text is left out,
and other text shown without the blanks around it, because here they are layout.
-/
import TemplateTree.Node.Basic
import TemplateTree.Text.Blank

namespace TemplateTree

/-- The text of a fragment, without any marks. -/
def Fragment.raw : Fragment → String
  | .text content => content
  | .mustache m => m.text

/-- An attribute in the outline: the whole value is one quotation. -/
def Attribute.outline (a : Attribute) : String :=
  if a.value = [] then a.name
  else a.name ++ "=" ++ quoted (String.join (a.value.map Fragment.raw))

/-- A start tag in the outline: attributes, then the expressions that apply to it. -/
def StartTag.outline (t : StartTag) : String :=
  "<" ++ t.name ++
    String.join ((t.attributes.map Attribute.outline ++ t.modifiers.map Mustache.text).map (" " ++ ·)) ++
    if t.selfClosing then "/>" else ">"

namespace Node

/-- A line at a depth. -/
def line (depth : Nat) (text : String) : String :=
  String.ofList (List.replicate (2 * depth) ' ') ++ text ++ "\n"

/-- A text without the blanks around it. -/
def trimmed (text : String) : String :=
  String.ofList (trim text.toList)

mutual

/-- The lines of a node at a depth. -/
def outlineAt (depth : Nat) : Node → String
  | .element tag children => line depth tag.outline ++ outlineRow (depth + 1) children
  | .block expression children inverse =>
    line depth (blockOpening expression.text) ++ outlineRow (depth + 1) children ++
      outlineInverse depth inverse
  | .text content =>
    if trimmed content = "" then "" else line depth ("#text: " ++ quoted (trimmed content))
  | .comment content => line depth ("<!-- " ++ trimmed content ++ " -->")
  | .mustache m => line depth m.text

/-- The lines of a row at a depth. -/
def outlineRow (depth : Nat) : List Node → String
  | [] => ""
  | node :: rest => outlineAt depth node ++ outlineRow depth rest

/-- The lines of the row for the other case, under a line that begins it. -/
def outlineInverse (depth : Nat) : Option (List Node) → String
  | none => ""
  | some nodes => line depth elseDirective ++ outlineRow (depth + 1) nodes

end

/-- The outline of a tree, under a line that stands for the whole. -/
def outline (nodes : List Node) : String :=
  line 0 "#fragment" ++ outlineRow 1 nodes

end Node

end TemplateTree
