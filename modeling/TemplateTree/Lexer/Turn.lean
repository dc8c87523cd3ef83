/-
What one character does.

A turn takes the lexer from one state to the next on one character.  It may complete
the token under construction, and it may leave the character to be read again in the
new state: three states notice only by their next character that they are over.
They are the hasty ones, and none of them hands a character to another, so no
character is read more than twice.

An opening bracket that turns out to open nothing is put back as text.  The blanks
read after it are not.
-/
import TemplateTree.Lexer.State
import TemplateTree.Text.Blank
import TemplateTree.Token.Basic

namespace TemplateTree

/-- The outcome of reading one character. -/
structure Turn where
  state : LexerState
  /-- The token under construction. -/
  pending : Option Token
  /-- The token that the character completed. -/
  completed : Option Token := none
  /-- Is the character to be read again? -/
  again : Bool := false
  deriving DecidableEq, Repr

namespace Turn

/-- Adds a character to a run of text, or begins one. -/
def addText (c : Char) : Option Token → Option Token
  | some (.text content) => some (.text (content.push c))
  | _ => some (.text c.toString)

/-- Adds to the comment under construction. -/
def addComment (text : String) : Option Token → Option Token
  | some (.comment content) => some (.comment (content ++ text))
  | pending => pending

/-- Changes the tag under construction. -/
def onTag (change : Tag → Tag) (pending : Option Token) : Option Token :=
  pending.map (Token.modifyTag change)

/-- Makes a start tag one that ends itself. -/
def closeSelf : Option Token → Option Token
  | some (.startTag tag) => some (.startTag { tag with selfClosing := true })
  | pending => pending

/-- Goes on in a state. -/
def goTo (state : LexerState) (pending : Option Token) : Turn :=
  { state, pending }

/-- Leaves the character to another state. -/
def handTo (state : LexerState) (pending : Option Token) : Turn :=
  { state, pending, again := true }

/-- Hands out the token under construction. -/
def complete (state : LexerState) (pending : Option Token) : Turn :=
  { state, pending := none, completed := pending }

/-! ### Text and the openings of markup -/

/-- In text; a bracket ends the run of text, which is handed out. -/
def data (pending : Option Token) (c : Char) : Turn :=
  if c = '<' then complete .tagOpen pending
  else goTo .data (addText c pending)

/-- After a bracket.  Blanks are passed over, and a letter begins a name.  Anything else
makes the bracket text. -/
def tagOpen (pending : Option Token) (c : Char) : Turn :=
  if c = '!' then goTo .markupDeclaration pending
  else if c = '/' then goTo .endTagOpen pending
  else if isMarkupSpace c then goTo .tagOpen pending
  else if isAsciiLetter c then goTo .tagName (some (.startTag (.named c.toString)))
  else handTo .data (addText '<' pending)

/-- After a bracket and a slash.  All is passed over up to a letter, which begins a name,
or to the closing bracket. -/
def endTagOpen (pending : Option Token) (c : Char) : Turn :=
  if isAsciiLetter c then goTo .tagName (some (.endTag (.named c.toString)))
  else if c = '>' then goTo .data pending
  else goTo .endTagOpen pending

/-- Declarations are passed over.  The two dashes that would make one a comment are
recognised together, before this is asked. -/
def markupDeclaration (pending : Option Token) (c : Char) : Turn :=
  if c = '>' then goTo .data pending
  else goTo .markupDeclaration pending

/-! ### Comments

Dashes that may belong to the end of a comment are held back, and written to it when
they turn out not to. -/

/-- Goes on inside a comment, after the dashes held back and one more character. -/
def comment (held : String) (pending : Option Token) (c : Char) : Turn :=
  goTo .comment (addComment (held.push c) pending)

/-- Right after the opening of a comment, where a closing bracket ends it at once. -/
def commentStart (pending : Option Token) (c : Char) : Turn :=
  if c = '-' then goTo .commentStartDash pending
  else if c = '>' then complete .data pending
  else comment "" pending c

/-- One dash after the opening, where a closing bracket still ends the comment. -/
def commentStartDash (pending : Option Token) (c : Char) : Turn :=
  if c = '-' then goTo .commentEnd pending
  else if c = '>' then complete .data pending
  else comment "-" pending c

/-- Inside a comment. -/
def insideComment (pending : Option Token) (c : Char) : Turn :=
  if c = '-' then goTo .commentEndDash pending
  else comment "" pending c

/-- After one dash inside a comment. -/
def commentEndDash (pending : Option Token) (c : Char) : Turn :=
  if c = '-' then goTo .commentEnd pending
  else comment "-" pending c

/-- After two dashes; with each further dash, one more than two belongs to the text. -/
def commentEnd (pending : Option Token) (c : Char) : Turn :=
  if c = '>' then complete .data pending
  else if c = '-' then goTo .commentEnd (addComment "-" pending)
  else comment "--" pending c

/-! ### Tags -/

/-- Inside the name of a tag. -/
def tagName (pending : Option Token) (c : Char) : Turn :=
  if isMarkupSpace c then goTo .beforeAttributeName pending
  else if c = '/' then goTo .selfClosingStartTag pending
  else if c = '>' then complete .data pending
  else goTo .tagName (onTag (·.addToName c) pending)

/-- Between the attributes of a tag.  An attribute may begin with any other character,
an equals sign included. -/
def beforeAttributeName (pending : Option Token) (c : Char) : Turn :=
  if isMarkupSpace c then goTo .beforeAttributeName pending
  else if c = '/' then goTo .selfClosingStartTag pending
  else if c = '>' then complete .data pending
  else goTo .attributeName (onTag (·.startAttribute c) pending)

/-- A blank ends the name, and with it the attribute: an equals sign after a blank
begins an attribute of its own. -/
def attributeName (pending : Option Token) (c : Char) : Turn :=
  if isMarkupSpace c then goTo .beforeAttributeName pending
  else if c = '/' then goTo .selfClosingStartTag pending
  else if c = '=' then goTo .beforeAttributeValue pending
  else if c = '>' then complete .data pending
  else goTo .attributeName (onTag (·.addToAttributeName c) pending)

/-- After an equals sign; what comes next tells the kind of value. -/
def beforeAttributeValue (pending : Option Token) (c : Char) : Turn :=
  if isMarkupSpace c then goTo .beforeAttributeValue pending
  else if c = '\"' then goTo .attributeValueDoubleQuoted pending
  else if c = '\'' then goTo .attributeValueSingleQuoted pending
  else if c = '>' then complete .data pending
  else goTo .attributeValueUnquoted (onTag (·.addToAttributeValue c) pending)

/-- Inside a quoted value; `state` is the state of that quote. -/
def quotedValue (quote : Char) (state : LexerState) (pending : Option Token) (c : Char) : Turn :=
  if c = quote then goTo .afterAttributeValueQuoted pending
  else goTo state (onTag (·.addToAttributeValue c) pending)

/-- Inside a value without quotes, to which a slash belongs like any other character. -/
def unquotedValue (pending : Option Token) (c : Char) : Turn :=
  if isMarkupSpace c then goTo .beforeAttributeName pending
  else if c = '>' then complete .data pending
  else goTo .attributeValueUnquoted (onTag (·.addToAttributeValue c) pending)

/-- After the closing quote of a value, where an attribute may begin without a blank. -/
def afterQuotedValue (pending : Option Token) (c : Char) : Turn :=
  if isMarkupSpace c then goTo .beforeAttributeName pending
  else if c = '/' then goTo .selfClosingStartTag pending
  else if c = '>' then complete .data pending
  else handTo .beforeAttributeName pending

/-- After a slash; it means nothing unless the tag ends right there. -/
def selfClosingStartTag (pending : Option Token) (c : Char) : Turn :=
  if c = '>' then complete .data (closeSelf pending)
  else handTo .beforeAttributeName pending

/-- What a character does in a state. -/
def take (state : LexerState) (pending : Option Token) (c : Char) : Turn :=
  match state with
  | .data => data pending c
  | .tagOpen => tagOpen pending c
  | .endTagOpen => endTagOpen pending c
  | .markupDeclaration => markupDeclaration pending c
  | .commentStart => commentStart pending c
  | .commentStartDash => commentStartDash pending c
  | .comment => insideComment pending c
  | .commentEndDash => commentEndDash pending c
  | .commentEnd => commentEnd pending c
  | .tagName => tagName pending c
  | .beforeAttributeName => beforeAttributeName pending c
  | .attributeName => attributeName pending c
  | .beforeAttributeValue => beforeAttributeValue pending c
  | .attributeValueDoubleQuoted => quotedValue '\"' .attributeValueDoubleQuoted pending c
  | .attributeValueSingleQuoted => quotedValue '\'' .attributeValueSingleQuoted pending c
  | .attributeValueUnquoted => unquotedValue pending c
  | .afterAttributeValueQuoted => afterQuotedValue pending c
  | .selfClosingStartTag => selfClosingStartTag pending c

end Turn

/-- The states that may leave a character to another state. -/
def LexerState.isHasty : LexerState → Bool
  | tagOpen | afterAttributeValueQuoted | selfClosingStartTag => true
  | _ => false

/-- A character left to another state was left by a hasty one to one that is not. -/
theorem Turn.isHasty_of_again {state : LexerState} {pending : Option Token} {c : Char}
    (h : (Turn.take state pending c).again = true) :
    state.isHasty = true ∧ (Turn.take state pending c).state.isHasty = false := by
  cases state <;>
    simp only [take, data, tagOpen, endTagOpen, markupDeclaration, commentStart, commentStartDash,
      insideComment, commentEndDash, commentEnd, comment, tagName, beforeAttributeName,
      attributeName, beforeAttributeValue, quotedValue, unquotedValue, afterQuotedValue,
      selfClosingStartTag, goTo, handTo, complete] at h ⊢ <;>
    (repeat' split at h) <;> simp_all [LexerState.isHasty]

end TemplateTree
