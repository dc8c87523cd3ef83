/-
Markup from tokens and trees.

Both are written the same way, so that a tree built from tokens reads like them.
How tags and attributes are written is a style, three functions one on top of the
other: the writer of a list of attributes is given the writer of one, and the writer
of a tag is given the writer of a list.

Blanks inside tags, the kind of quotes, and the blank before the slash of a tag that
ends itself are not kept: the standard style has one form for each.
-/
import TemplateTree.Node.Basic

namespace TemplateTree

/-- A way to write tags. -/
structure MarkupStyle where
  writeAttribute : Attribute → String
  writeAttributes : (Attribute → String) → List Attribute → String
  writeTag : (List Attribute → String) → StartTag → String

namespace MarkupStyle

/-- A fragment inside double quotes. -/
def fragmentText : Fragment → String
  | .text content => markQuotes content
  | .mustache m => m.text

/-- An attribute; without a value, its bare name. -/
def attributeText (a : Attribute) : String :=
  if a.value = [] then a.name
  else a.name ++ "=\"" ++ String.join (a.value.map fragmentText) ++ "\""

/-- Attributes with single blanks between them. -/
def attributesText (writeAttribute : Attribute → String) (list : List Attribute) : String :=
  String.intercalate " " (list.map writeAttribute)

/-- A start tag: attributes, then the expressions that apply to it. -/
def tagText (writeAttributes : List Attribute → String) (t : StartTag) : String :=
  "<" ++ t.name ++ (if t.attributes = [] then "" else " " ++ writeAttributes t.attributes) ++
    String.join (t.modifiers.map (" " ++ ·.text)) ++ if t.selfClosing then "/>" else ">"

/-- The standard style. -/
def standard : MarkupStyle :=
  ⟨attributeText, attributesText, tagText⟩

/-- A start tag in a style. -/
def startTag (style : MarkupStyle) (t : StartTag) : String :=
  style.writeTag (style.writeAttributes style.writeAttribute) t

end MarkupStyle

/-- The end tag with a name. -/
def endTagText (name : String) : String :=
  "</" ++ name ++ ">"

/-- A comment. -/
def commentText (content : String) : String :=
  "<!--" ++ content ++ "-->"

/-- A token as markup. -/
def Token.markup (style : MarkupStyle) : Token → String
  | .text content => content
  | .comment content => commentText content
  | .startTag tag => style.startTag tag
  | .endTag tag => endTagText tag.name

/-- A row of tokens as markup. -/
def markupOfTokens (style : MarkupStyle) (tokens : List Token) : String :=
  String.join (tokens.map (Token.markup style))

namespace Node

mutual

/-- A node as markup. -/
def markup (style : MarkupStyle) : Node → String
  | .element tag children =>
    if tag.selfClosing then style.startTag tag
    else style.startTag tag ++ markupOfRow style children ++ endTagText tag.name
  | .block expression children inverse =>
    blockOpening expression.text ++ markupOfRow style children ++ markupOfInverse style inverse ++
      blockClosing expression.path
  | .text content => content
  | .comment content => commentText content
  | .mustache m => m.text

/-- The nodes of a row as markup. -/
def markupOfRow (style : MarkupStyle) : List Node → String
  | [] => ""
  | node :: rest => markup style node ++ markupOfRow style rest

/-- The row for the other case, if there is one, after the directive that begins it. -/
def markupOfInverse (style : MarkupStyle) : Option (List Node) → String
  | none => ""
  | some nodes => elseDirective ++ markupOfRow style nodes

end

end Node

/-- A tree as markup. -/
def render (style : MarkupStyle) (nodes : List Node) : String :=
  Node.markupOfRow style nodes

@[simp] theorem render_nil (style : MarkupStyle) : render style [] = "" := rfl

@[simp] theorem render_cons (style : MarkupStyle) (node : Node) (rest : List Node) :
    render style (node :: rest) = node.markup style ++ render style rest := rfl

theorem render_append (style : MarkupStyle) (first second : List Node) :
    render style (first ++ second) = render style first ++ render style second := by
  induction first with
  | nil => simp
  | cons node rest ih => simp [ih, String.append_assoc]

/-- A text that joined the text before it is written as if it had not. -/
theorem render_push (style : MarkupStyle) (row : List Node) (node : Node) :
    render style (Node.push row node).reverse = render style row.reverse ++ node.markup style := by
  fun_cases Node.push row node with
  | case1 last earlier content => simp [render_append, Node.markup, String.append_assoc]
  | case2 => simp [render_append]

end TemplateTree
