/-
What can be wrong with the directives of a source.

A fault says what is wrong; an error is a fault with its place, which is always the
place where a directive opens.  The wording is in `DirectiveFault.message` and
nowhere else.
-/
import TemplateTree.Directive.Location
import TemplateTree.Expression.Read

namespace TemplateTree

/-- What is wrong. -/
inductive DirectiveFault
  /-- The delimiter that closes a directive is missing. -/
  | unclosedMustache
  /-- What stands between the delimiters is no expression. -/
  | expression (fault : ExpressionFault)
  /-- An `else` with an expression after it. -/
  | chainedElse
  /-- A directive that asks for another template. -/
  | partialDirective
  /-- A block is closed and none is open. -/
  | unexpectedClose (name : String)
  /-- A block is closed under another name. -/
  | mismatchedClose (opened found : String)
  /-- A block is still open at the end. -/
  | unclosedBlock (name : String)
  /-- An `else` outside of a block, or a second one in it. -/
  | unexpectedElse
  /-- A block too deep. -/
  | nestingTooDeep (limit : Nat)
  deriving DecidableEq, Repr

/-- What is wrong, and where the directive opens that shows it. -/
structure DirectiveError where
  fault : DirectiveFault
  location : Location
  deriving DecidableEq, Repr

/-- The wording of what is wrong with an expression. -/
def ExpressionFault.message : ExpressionFault → String
  | .empty => "Empty expression"
  | .unterminatedString => "Unterminated string"
  | .noPath => "Invalid expression: expression must start with a path"
  | .positionalAfterNamed => "Invalid expression: positional parameter after hash argument"
  | .missingKey => "Invalid expression: missing hash key"
  | .missingValue => "Invalid expression: missing hash value"

/-- The wording up to the place. -/
def DirectiveFault.message : DirectiveFault → String
  | .unclosedMustache => "Unclosed mustache at "
  | .expression fault => fault.message ++ " at "
  | .chainedElse => "Invalid expression: chained else is not supported at "
  | .partialDirective => "Invalid expression: partials are not supported at "
  | .unexpectedClose name => "Unexpected " ++ blockClosing name ++ " at "
  | .mismatchedClose opened found =>
    blockOpening opened ++ " closed by " ++ blockClosing found ++ " at "
  | .unclosedBlock name => "Unclosed block " ++ blockOpening name ++ " opened at "
  | .unexpectedElse => elseDirective ++ " outside of a block at "
  | .nestingTooDeep limit => "Blocks nested deeper than " ++ toString limit ++ " levels at "

/-- The wording with the place. -/
def DirectiveError.message (e : DirectiveError) : String :=
  e.fault.message ++ e.location.text

end TemplateTree
