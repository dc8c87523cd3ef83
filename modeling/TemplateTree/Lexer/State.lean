/-
Where the reader of markup stands.

Eighteen states, in the order in which a document can bring them about.  Three
groups of them matter to an expression that arrives between two pieces of text:
inside a tag it applies to the tag, inside the value of an attribute it is part of
the value, inside a comment it is part of the comment's text.
-/

namespace TemplateTree

/-- A state of the lexer. -/
inductive LexerState
  | data
  | tagOpen
  | endTagOpen
  | markupDeclaration
  | commentStart
  | commentStartDash
  | comment
  | commentEndDash
  | commentEnd
  | tagName
  | beforeAttributeName
  | attributeName
  | beforeAttributeValue
  | attributeValueDoubleQuoted
  | attributeValueSingleQuoted
  | attributeValueUnquoted
  | afterAttributeValueQuoted
  | selfClosingStartTag
  deriving DecidableEq, Repr

namespace LexerState

/-- The name of a state in messages. -/
def name : LexerState → String
  | data => "Data"
  | tagOpen => "TagOpen"
  | endTagOpen => "EndTagOpen"
  | markupDeclaration => "MarkupDeclaration"
  | commentStart => "CommentStart"
  | commentStartDash => "CommentStartDash"
  | comment => "Comment"
  | commentEndDash => "CommentEndDash"
  | commentEnd => "CommentEnd"
  | tagName => "TagName"
  | beforeAttributeName => "BeforeAttributeName"
  | attributeName => "AttributeName"
  | beforeAttributeValue => "BeforeAttributeValue"
  | attributeValueDoubleQuoted => "AttributeValueDoubleQuoted"
  | attributeValueSingleQuoted => "AttributeValueSingleQuoted"
  | attributeValueUnquoted => "AttributeValueUnquoted"
  | afterAttributeValueQuoted => "AfterAttributeValueQuoted"
  | selfClosingStartTag => "SelfClosingStartTag"

/-- Inside the value of an attribute, or right after its equals sign. -/
def isInAttributeValue : LexerState → Bool
  | beforeAttributeValue | attributeValueDoubleQuoted | attributeValueSingleQuoted
  | attributeValueUnquoted => true
  | _ => false

/-- Inside a start tag or an end tag, from the first letter of its name on. -/
def isInTag : LexerState → Bool
  | tagName | beforeAttributeName | attributeName | beforeAttributeValue
  | attributeValueDoubleQuoted | attributeValueSingleQuoted | attributeValueUnquoted
  | afterAttributeValueQuoted | selfClosingStartTag => true
  | _ => false

/-- Inside a comment, from the end of its opening on. -/
def isInComment : LexerState → Bool
  | commentStart | commentStartDash | comment | commentEndDash | commentEnd => true
  | _ => false

/-- A value belongs to a tag. -/
theorem isInTag_of_isInAttributeValue {s : LexerState} (h : s.isInAttributeValue = true) :
    s.isInTag = true := by
  cases s <;> first | rfl | simp [isInAttributeValue] at h

/-- No state is inside a tag and inside a comment. -/
theorem not_isInTag_of_isInComment {s : LexerState} (h : s.isInComment = true) :
    s.isInTag = false := by
  cases s <;> first | rfl | simp [isInComment] at h

end LexerState

end TemplateTree
