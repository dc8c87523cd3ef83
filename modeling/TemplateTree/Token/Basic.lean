/-
Tokens of markup.

A token is a run of text, a comment, a start tag or an end tag.  Start and end tags
share a name and attributes, since the reader does not ask which of the two it is in
before it reads attributes; what an end tag was given there is never looked at
again.

Names are lower case from the moment they are read: every way to make or to extend
one lowers the letters.
-/
import TemplateTree.Attribute
import TemplateTree.Text.Case

namespace TemplateTree

/-- What start tags and end tags have in common. -/
structure Tag where
  name : String
  attributes : List Attribute := []
  deriving DecidableEq, Repr

/-- A start tag. -/
structure StartTag extends Tag where
  /-- Does the tag end itself, so that no end tag belongs to it? -/
  selfClosing : Bool := false
  /-- The expressions that apply to the tag as a whole. -/
  modifiers : List Mustache := []
  deriving DecidableEq, Repr

/-- A token. -/
inductive Token
  | text (content : String)
  | comment (content : String)
  | startTag (tag : StartTag)
  | endTag (tag : Tag)
  deriving DecidableEq, Repr

namespace Tag

/-- A tag with a name and nothing else. -/
def named (name : String) : Tag :=
  ⟨asciiLower name, []⟩

/-- Changes the attribute that was begun last; without one, nothing. -/
def modifyLast (change : Attribute → Attribute) : List Attribute → List Attribute
  | [] => []
  | [last] => [change last]
  | first :: rest => first :: modifyLast change rest

/-- Adds a letter to the name. -/
def addToName (t : Tag) (c : Char) : Tag :=
  { t with name := t.name.push c.toLower }

/-- Begins an attribute whose name begins with `c`. -/
def startAttribute (t : Tag) (c : Char) : Tag :=
  { t with attributes := t.attributes ++ [⟨c.toLower.toString, []⟩] }

/-- Adds a letter to the name of the last attribute. -/
def addToAttributeName (t : Tag) (c : Char) : Tag :=
  { t with attributes := modifyLast (fun a => { a with name := a.name.push c.toLower }) t.attributes }

/-- Adds a literal character to the value of the last attribute. -/
def addToAttributeValue (t : Tag) (c : Char) : Tag :=
  { t with attributes := modifyLast (·.pushChar c) t.attributes }

/-- Adds an expression to the value of the last attribute; nothing if there is none. -/
def addMustacheToAttributeValue? (t : Tag) (m : Mustache) : Option Tag :=
  if t.attributes = [] then none
  else some { t with attributes := modifyLast (·.pushMustache m) t.attributes }

/-- The attribute that was begun last. -/
def currentAttribute? (t : Tag) : Option Attribute :=
  t.attributes.getLast?

end Tag

namespace StartTag

/-- A start tag with a name and nothing else. -/
def named (name : String) : StartTag :=
  { toTag := Tag.named name }

/-- Applies an expression to the tag as a whole. -/
def addModifier (t : StartTag) (m : Mustache) : StartTag :=
  { t with modifiers := t.modifiers ++ [m] }

end StartTag

namespace Token

/-- The tag of a token that is one. -/
def tag? : Token → Option Tag
  | .text _ => none
  | .comment _ => none
  | .startTag tag => some tag.toTag
  | .endTag tag => some tag

/-- Changes the tag of a token that is one. -/
def modifyTag (change : Tag → Tag) : Token → Token
  | .text content => .text content
  | .comment content => .comment content
  | .startTag tag => .startTag { tag with toTag := change tag.toTag }
  | .endTag tag => .endTag (change tag)

/-- The kind of a token, with its name if it has one, as error messages put it. -/
def describe : Token → String
  | .text _ => "#text"
  | .comment _ => "<!--"
  | .startTag tag => "<" ++ tag.name
  | .endTag tag => "</" ++ tag.name

end Token

end TemplateTree
