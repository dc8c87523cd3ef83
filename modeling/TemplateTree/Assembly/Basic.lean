/-
The assembly: a lexer and a stack that work together.

Tokens come out of the lexer whole, and only their kind decides what becomes of
them.  Expressions and blocks come while the lexer may be anywhere inside a tag, so
its state decides.  Text under construction is always taken first: what comes after
a text in the source comes after it in the tree.

An operation that fails may have done something all the same, the text taken first
being the usual case.  An outcome therefore has the state in any event, and the error
beside it.
-/
import TemplateTree.Assembly.OpenStack
import TemplateTree.Lexer.Basic

namespace TemplateTree

/-- A tree being put together from markup. -/
structure Assembly where
  lexer : Lexer := {}
  stack : OpenStack

/-- What an operation leaves, and why it failed, if it did. -/
structure Outcome where
  assembly : Assembly
  error : Option TemplateError := none

namespace Outcome

/-- The outcome of a step on the stack. -/
def ofStack (a : Assembly) : Step OpenStack → Outcome
  | .ok stack => ⟨{ a with stack }, none⟩
  | .error e stack => ⟨{ a with stack }, some e⟩

/-- Goes on unless something failed. -/
def andThen (o : Outcome) (next : Assembly → Outcome) : Outcome :=
  match o.error with
  | none => next o.assembly
  | some _ => o

end Outcome

namespace Assembly

/-- Nothing read, nothing open. -/
def fresh (maxDepth : Nat) : Assembly :=
  { stack := { maxDepth } }

/-- Takes a token. -/
def mergeToken (a : Assembly) (token : Token) : Outcome :=
  .ofStack a (a.stack.mergeToken token)

/-- Takes tokens, up to the first that fails. -/
def mergeTokens (a : Assembly) : List Token → Outcome
  | [] => ⟨a, none⟩
  | token :: rest => (a.mergeToken token).andThen (mergeTokens · rest)

/-- Takes a piece of markup.  The lexer reads all of it before the first token is taken,
so a token that fails takes those after it with it. -/
def feed (a : Assembly) (text : String) : Outcome :=
  let (tokens, lexer) := a.lexer.feed text
  mergeTokens { a with lexer } tokens

/-- Takes the text under construction. -/
def flushText (a : Assembly) : Assembly :=
  match a.lexer.takeText with
  | (some content, lexer) => ⟨lexer, a.stack.push (.text content)⟩
  | (none, _) => a

/-! ### Expressions in place -/

/-- Applies an expression to the tag under construction, which has to be a start tag. -/
def addModifier (a : Assembly) (m : Mustache) : Option Assembly :=
  match a.lexer.pending with
  | some (.startTag tag) =>
    some { a with lexer := { a.lexer with pending := some (.startTag (tag.addModifier m)) } }
  | _ => none

/-- The state in which a value goes on after an expression.  Right after an equals sign
the expression begins the value, which then is one without quotes. -/
def valueState (state : LexerState) : LexerState :=
  if state = .beforeAttributeValue then .attributeValueUnquoted else state

/-- Adds an expression to the value under construction, in a start tag. -/
def addToValue (a : Assembly) (m : Mustache) : Option Assembly :=
  match a.lexer.pending with
  | some (.startTag tag) =>
    (tag.addMustacheToAttributeValue? m).map fun changed =>
      { a with lexer := { a.lexer with
          state := valueState a.lexer.state
          pending := some (.startTag { tag with toTag := changed }) } }
  | _ => none

/-- Adds the written form of an expression to the comment under construction. -/
def addToComment (a : Assembly) (m : Mustache) : Option Assembly :=
  (a.lexer.foldIntoComment? m.text).map fun lexer => { a with lexer }

/-- Puts an expression where the lexer stands, if it may stand there. -/
def placeMustache (a : Assembly) (m : Mustache) : Option Assembly :=
  match a.lexer.state with
  | .data => some { a with stack := a.stack.push (.mustache m) }
  | .tagOpen | .endTagOpen | .markupDeclaration => none
  | .tagName | .beforeAttributeName | .attributeName | .afterAttributeValueQuoted
  | .selfClosingStartTag => a.addModifier m
  | .beforeAttributeValue | .attributeValueDoubleQuoted | .attributeValueSingleQuoted
  | .attributeValueUnquoted => a.addToValue m
  | .commentStart | .commentStartDash | .comment | .commentEndDash | .commentEnd =>
    a.addToComment m

/-- Takes an expression. -/
def mergeMustache (a : Assembly) (m : Mustache) : Outcome :=
  let a := a.flushText
  match a.placeMustache m with
  | some placed => ⟨placed, none⟩
  | none => ⟨a, some (.misplacedDirective m.text a.lexer.state)⟩

/-! ### Blocks -/

/-- Begins a block, which may stand only where a node may. -/
def enterBlock (a : Assembly) (expression : Expression) : Outcome :=
  let a := a.flushText
  if a.lexer.state = .data then .ofStack a (a.stack.openBlock expression)
  else ⟨a, some (.misplacedDirective (blockOpening expression.text) a.lexer.state)⟩

/-- The markup that is half read. -/
def halfRead (l : Lexer) : Opened :=
  match l.pending with
  | some token => .token token
  | none => .bracket

/-- Ends one of the programs of a block.  Markup that begins in a block has to end in
it. -/
def closeProgram (a : Assembly) : Outcome :=
  let a := a.flushText
  if a.lexer.state = .data then ⟨a, none⟩
  else ⟨a, some (.unterminatedStructure (halfRead a.lexer) a.stack.depth)⟩

/-- Goes on to the second program of the innermost block. -/
def startInverse (a : Assembly) : Outcome :=
  .ofStack a a.stack.startInverse

/-- Ends the innermost block. -/
def leaveBlock (a : Assembly) : Outcome :=
  .ofStack a a.stack.leaveBlock

/-! ### The end -/

/-- The tree, if nothing is half read and nothing is open.  An opening bracket at the
end of which nothing came is dropped. -/
def finish (a : Assembly) : Except TemplateError (List Node) :=
  let a := a.flushText
  match a.lexer.pending with
  | some token => .error (.unterminatedStructure (.token token) a.stack.depth)
  | none =>
    if 0 < a.stack.depth then .error (.unterminatedStructure a.stack.opened a.stack.depth)
    else .ok a.stack.root.reverse

end Assembly

end TemplateTree
