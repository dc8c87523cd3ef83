/-
Trees as JSON.

Each node is an object whose one name tells the kind of node.
-/
import TemplateTree.Node.Basic

namespace TemplateTree

namespace Node

/-- What an element's object holds. -/
def elementJson (tag : StartTag) (children : List Json) : Json :=
  .object [
    ("tag_name", .string tag.name),
    ("attributes", .array (tag.attributes.map Attribute.toJson)),
    ("modifiers", .array (tag.modifiers.map Mustache.toJson)),
    ("children", .array children),
    ("self_closing", .bool tag.selfClosing)]

mutual

/-- A node as JSON. -/
def toJson : Node → Json
  | .element tag children => .object [("Element", elementJson tag (itemsJson children))]
  | .block expression children inverse =>
    .object [("Block", .object [
      ("expression", expression.toJson),
      ("children", .array (itemsJson children)),
      ("inverse", inverseJson inverse)])]
  | .text content => .object [("Text", .string content)]
  | .comment content => .object [("Comment", .string content)]
  | .mustache m => .object [("Mustache", m.toJson)]

/-- The nodes of a row as JSON. -/
def itemsJson : List Node → List Json
  | [] => []
  | node :: rest => node.toJson :: itemsJson rest

/-- The row for the other case, or `null`. -/
def inverseJson : Option (List Node) → Json
  | none => .null
  | some nodes => .array (itemsJson nodes)

end

/-- A tree as JSON. -/
def treeJson (nodes : List Node) : Json :=
  .array (itemsJson nodes)

end Node

end TemplateTree
