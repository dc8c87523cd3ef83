/-
The delimiters of directives.

A directive stands between two braces on either side, or three when what it yields
is not to be escaped.  These are the only places where the project spells a brace.
-/

namespace TemplateTree

/-- Opens a directive. -/
def openBraces : String := "\x7b\x7b"

/-- Closes a directive. -/
def closeBraces : String := "\x7d\x7d"

/-- Opens a directive whose value is not escaped. -/
def openTriple : String := "\x7b\x7b\x7b"

/-- Closes a directive whose value is not escaped. -/
def closeTriple : String := "\x7d\x7d\x7d"

/-- A text between two braces on either side. -/
def inBraces (text : String) : String :=
  openBraces ++ text ++ closeBraces

/-- A text between three braces on either side. -/
def inTriple (text : String) : String :=
  openTriple ++ text ++ closeTriple

/-- The directive that opens a block. -/
def blockOpening (text : String) : String :=
  inBraces ("#" ++ text)

/-- The directive between the two parts of a block. -/
def elseDirective : String :=
  inBraces "else"

/-- The directive that closes a block. -/
def blockClosing (name : String) : String :=
  inBraces ("/" ++ name)

end TemplateTree
