/-
From a template to its tree.

The directives of the source are read first, as if its markup were plain text; then
the markup is read with the directives in place.  Both have a limit of their own on
nesting, and by default the same.
-/
import TemplateTree.Assembly.Operation
import TemplateTree.Directive.Program

namespace TemplateTree

/-- The tree of a program, elements and blocks nesting at most `maxDepth` deep. -/
def assemble (program : Program) (maxDepth : Nat := maxNesting) : Except TemplateError (List Node) :=
  let outcome := (Assembly.fresh maxDepth).run (Statement.operationsOf program)
  match outcome.error with
  | none => outcome.assembly.finish
  | some e => .error e

/-- The tree of a source; `limit` bounds the nesting of its blocks, `maxDepth` that of
blocks and elements together. -/
def preprocess (source : String) (limit : Nat := maxNesting) (maxDepth : Nat := maxNesting) :
    Except TemplateError (List Node) :=
  match parseDirectives source limit with
  | .ok program => assemble program maxDepth
  | .error e => .error (.directive e)

end TemplateTree
