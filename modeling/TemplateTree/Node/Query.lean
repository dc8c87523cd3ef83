/-
Looking for things in a tree.

Searches for elements and blocks go through the whole tree in the order of the
source: a node, then its children, then the row for the other case.  The text of a
tree, in contrast, is what it shows in the first case, so it leaves that second row
out.
-/
import TemplateTree.Node.Basic

namespace TemplateTree

namespace Node

mutual

/-- A node and all nodes below it, in source order. -/
def withDescendants : Node → List Node
  | .element tag children => .element tag children :: descendantsOf children
  | .block expression children inverse =>
    .block expression children inverse ::
      (descendantsOf children ++ descendantsOfInverse inverse)
  | .text content => [.text content]
  | .comment content => [.comment content]
  | .mustache m => [.mustache m]

/-- The nodes of a row and all below them, in source order. -/
def descendantsOf : List Node → List Node
  | [] => []
  | node :: rest => withDescendants node ++ descendantsOf rest

/-- The nodes of the row for the other case, and all below them. -/
def descendantsOfInverse : Option (List Node) → List Node
  | none => []
  | some nodes => descendantsOf nodes

end

mutual

/-- A node and all nodes below it, without the rows for the other case. -/
def withMainDescendants : Node → List Node
  | .element tag children => .element tag children :: mainDescendantsOf children
  | .block expression children inverse =>
    .block expression children inverse :: mainDescendantsOf children
  | .text content => [.text content]
  | .comment content => [.comment content]
  | .mustache m => [.mustache m]

/-- The nodes of a row and all below them, without the rows for the other case. -/
def mainDescendantsOf : List Node → List Node
  | [] => []
  | node :: rest => withMainDescendants node ++ mainDescendantsOf rest

end

/-- The elements with a tag name, whatever the case of its letters. -/
def elementsByTagName (nodes : List Node) (name : String) : List Node :=
  (descendantsOf nodes).filter fun node => (node.tag?.map (·.name)) == some (asciiLower name)

/-- The blocks with a name. -/
def blocksByName (nodes : List Node) (name : String) : List Node :=
  (descendantsOf nodes).filter fun node => node.blockName? == some name

/-- The text of a tree. -/
def textContent (nodes : List Node) : String :=
  String.join ((mainDescendantsOf nodes).filterMap text?)

end Node

/-- The attribute with a name, whatever the case of its letters; of several, the first. -/
def Tag.attribute? (t : Tag) (name : String) : Option Attribute :=
  t.attributes.find? (·.name == asciiLower name)

end TemplateTree
