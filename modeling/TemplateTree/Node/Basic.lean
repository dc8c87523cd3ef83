/-
The tree of a template.

A node is an element, a block, a run of text, a comment, or an expression in place.
An element is its start tag with children; a block has children and perhaps, for
the other case, a second row of them.

A row of nodes that is still growing is kept newest first, so that a node is added in
one step however long the row is, and turned round once, when it is complete.
`Node.push` keeps such rows free of neighbouring texts: a text that meets a text
becomes part of it.
-/
import TemplateTree.Token.Basic

namespace TemplateTree

/-- A node of the tree. -/
inductive Node
  | element (tag : StartTag) (children : List Node)
  | block (expression : Expression) (children : List Node) (inverse : Option (List Node))
  | text (content : String)
  | comment (content : String)
  | mustache (mustache : Mustache)
  deriving Inhabited

namespace Node

/-- An element without children.  The letters of its name are lowered. -/
def ofStartTag (tag : StartTag) : Node :=
  .element { tag with name := asciiLower tag.name } []

/-- Adds a node to a row that is kept newest first. -/
def push : List Node → Node → List Node
  | .text last :: earlier, .text content => .text (last ++ content) :: earlier
  | row, node => node :: row

/-- The children of a node; of a block, those of its first row. -/
def children : Node → List Node
  | .element _ children => children
  | .block _ children _ => children
  | .text _ | .comment _ | .mustache _ => []

/-- The start tag of an element. -/
def tag? : Node → Option StartTag
  | .element tag _ => some tag
  | _ => none

/-- The name of a block. -/
def blockName? : Node → Option String
  | .block expression _ _ => some expression.path
  | _ => none

/-- The text of a text node. -/
def text? : Node → Option String
  | .text content => some content
  | _ => none

/-- The expression of an expression in place. -/
def mustache? : Node → Option Mustache
  | .mustache m => some m
  | _ => none

/-- Is this an element? -/
def isElement (node : Node) : Bool := node.tag?.isSome

/-- Is this a block? -/
def isBlock (node : Node) : Bool := node.blockName?.isSome

/-- Is this a run of text? -/
def isText (node : Node) : Bool := node.text?.isSome

/-- Is this a comment? -/
def isComment : Node → Bool
  | .comment _ => true
  | _ => false

/-! ### Rows -/

/-- A node that is no text is simply added. -/
theorem push_of_not_isText (row : List Node) {node : Node} (h : node.isText = false) :
    push row node = node :: row := by
  cases node with
  | text content => simp [isText, text?] at h
  | _ => simp [push]

end Node

end TemplateTree
