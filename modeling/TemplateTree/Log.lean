/-
The log.

What the program says about its steps, for whoever follows one.  Records are no part
of the state: they are found by going through the same operations once more, and so
nothing that is done can depend on what is said about it.

A token that comes out of the lexer during a walk over a program is reported twice,
once by the walk with all its parts, and once, like any other, when it is taken.
-/
import TemplateTree.Template
import TemplateTree.Token.Dump

namespace TemplateTree

/-- Who speaks. -/
inductive Speaker
  /-- The reader of directives. -/
  | directives
  /-- The walk over a program. -/
  | walk
  /-- The assembly. -/
  | assembly
  deriving DecidableEq, Repr

/-- One thing said. -/
inductive Record
  | parsed (statements : Nat)
  | lexed (token : Token)
  | merging (token : Token) (depth : Nat)
  | placing (mustache : Mustache) (state : LexerState)
  | entering (name : String) (depth : Nat)
  | built (nodes : Nat)
  deriving DecidableEq, Repr

namespace Record

/-- Who says it. -/
def speaker : Record → Speaker
  | parsed _ => .directives
  | lexed _ | entering _ _ | built _ => .walk
  | merging _ _ | placing _ _ => .assembly

/-- How much the record matters: the steps themselves matter least. -/
def level : Record → String
  | parsed _ | entering _ _ | built _ => "DEBUG"
  | lexed _ | merging _ _ | placing _ _ => "TRACE"

/-- The wording. -/
def message : Record → String
  | parsed statements => "Parsed " ++ toString statements ++ " top-level directive statements"
  | lexed token => "Token: " ++ token.dump
  | merging token depth => "Merging token " ++ token.describe ++ " at depth " ++ toString depth
  | placing m state => "Merging " ++ m.text ++ " in state " ++ state.name
  | entering name depth => "Entering block " ++ name ++ " at depth " ++ toString depth
  | built nodes => "Built " ++ toString nodes ++ " root nodes"

end Record

/-- The name under which the log lists a speaker. -/
def Speaker.name : Speaker → String
  | directives => "weft_directive::parser"
  | walk => "weft_html::tree_builder"
  | assembly => "weft_html::merge"

/-- A record as a line of the log. -/
def Record.line (r : Record) : String :=
  r.level ++ " " ++ r.speaker.name ++ ": " ++ r.message

namespace Assembly

/-- What is said when the text under construction is taken. -/
def flushRecords (a : Assembly) : List Record :=
  match a.lexer.takeText.1 with
  | some content => [.merging (.text content) a.stack.depth]
  | none => []

/-- What is said of tokens, up to the first that fails. -/
def tokenRecords (a : Assembly) : List Token → List Record
  | [] => []
  | token :: rest =>
    let outcome := a.mergeToken token
    .lexed token :: .merging token a.stack.depth ::
      if outcome.error.isNone then tokenRecords outcome.assembly rest else []

/-- What is said of an operation. -/
def operationRecords (a : Assembly) : Operation → List Record
  | .feed text =>
    let (tokens, lexer) := a.lexer.feed text
    tokenRecords { a with lexer } tokens
  | .token token => [.merging token a.stack.depth]
  | .mustache m => a.flushRecords ++ [.placing m a.flushText.lexer.state]
  | .enterBlock expression =>
    let outcome := a.enterBlock expression
    a.flushRecords ++
      if outcome.error.isNone then [.entering expression.path outcome.assembly.stack.depth] else []
  | .flushText | .closeProgram => a.flushRecords
  | .startInverse | .leaveBlock => []

/-- What is said of a run of operations, up to the first that fails. -/
def runRecords (a : Assembly) : List Operation → List Record
  | [] => []
  | operation :: rest =>
    let outcome := a.apply operation
    a.operationRecords operation ++
      if outcome.error.isNone then runRecords outcome.assembly rest else []

/-- What is said at the end. -/
def finishRecords (a : Assembly) : List Record :=
  a.flushRecords ++
    match a.finish with
    | .ok nodes => [.built nodes.length]
    | .error _ => []

end Assembly

/-- What is said while directives are read. -/
def parseRecords (source : String) (limit : Nat := maxNesting) : List Record :=
  match parseDirectives source limit with
  | .ok program => [.parsed program.length]
  | .error _ => []

/-- What is said while a tree is put together. -/
def assembleRecords (program : Program) (maxDepth : Nat := maxNesting) : List Record :=
  let operations := Statement.operationsOf program
  let outcome := (Assembly.fresh maxDepth).run operations
  (Assembly.fresh maxDepth).runRecords operations ++
    if outcome.error.isNone then outcome.assembly.finishRecords else []

/-- What is said from a source to its tree. -/
def preprocessRecords (source : String) (limit : Nat := maxNesting) (maxDepth : Nat := maxNesting) :
    List Record :=
  parseRecords source limit ++
    match parseDirectives source limit with
    | .ok program => assembleRecords program maxDepth
    | .error _ => []

end TemplateTree
