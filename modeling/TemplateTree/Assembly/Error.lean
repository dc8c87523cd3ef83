/-
What can go wrong when a tree is put together.

An error names the thing that is still open where something else was expected, and
how many elements and blocks are open there.  What the directives got wrong passes
through with its own wording.
-/
import TemplateTree.Directive.Error
import TemplateTree.Lexer.State
import TemplateTree.Token.Basic

namespace TemplateTree

/-- Something that is open. -/
inductive Opened
  /-- The whole, which is always open. -/
  | fragment
  | element (name : String)
  | block (name : String)
  /-- Markup that is half read. -/
  | token (token : Token)
  /-- An opening bracket of which nothing more is known. -/
  | bracket
  deriving DecidableEq, Repr

/-- The wording for what is open. -/
def Opened.text : Opened → String
  | fragment => "#fragment"
  | element name => "<" ++ name ++ ">"
  | block name => blockOpening name
  | token t => t.describe
  | bracket => "<"

/-- Why there is no tree. -/
inductive TemplateError
  /-- An end tag where another element has to end first. -/
  | unmatchedCloseTag (expected found : String) (depth : Nat)
  /-- An end tag where no element can end. -/
  | unexpectedCloseTag (found : String) (opened : Opened) (depth : Nat)
  /-- Something that should have ended did not. -/
  | unterminatedStructure (opened : Opened) (depth : Nat)
  /-- A directive inside markup that cannot hold it. -/
  | misplacedDirective (text : String) (state : LexerState)
  /-- One element or block too many inside one another. -/
  | nestingTooDeep (limit : Nat)
  | directive (error : DirectiveError)
  deriving DecidableEq, Repr

/-- The wording of an error. -/
def TemplateError.message : TemplateError → String
  | unmatchedCloseTag expected found depth =>
    "Unmatched close tag: expected </" ++ expected ++ ">, found </" ++ found ++ "> at depth " ++
      toString depth
  | unexpectedCloseTag found opened depth =>
    "Unexpected close tag </" ++ found ++ "> while " ++ opened.text ++ " is open at depth " ++
      toString depth
  | unterminatedStructure opened depth =>
    "Unterminated structure: " ++ opened.text ++ " is never closed (depth " ++ toString depth ++ ")"
  | misplacedDirective text state =>
    "Directive " ++ text ++ " cannot appear in tokenizer state " ++ state.name
  | nestingTooDeep limit => "Nesting deeper than " ++ toString limit ++ " levels"
  | directive error => error.message

end TemplateTree
