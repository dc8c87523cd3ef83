/-
The command line.

A request is read off the arguments; it may name a file; the report is what is
written and the code the program ends with.  Reading the file is left to the caller,
so everything here is a function.

Only the first argument, and the second after an option that asks for a file, are
looked at.  Help that was not asked for goes where help goes, to standard output; the
complaint that led to it goes to the other stream.
-/
import TemplateTree.FileTree
import TemplateTree.Markup
import TemplateTree.Node.Json
import TemplateTree.Node.Outline
import TemplateTree.Template
import TemplateTree.Text.Terminal
import TemplateTree.Token.Dump

namespace TemplateTree

namespace CommandLine

/-- What is asked for. -/
inductive Request
  | help
  | version
  | outline (path : String)
  | tokens (path : String)
  | markup (path : String)
  | json (path : String)
  deriving DecidableEq, Repr

/-- What is wrong with the arguments. -/
inductive UsageError
  | noArguments
  | noFile (option : String)
  | unknownOption (option : String)
  deriving DecidableEq, Repr

/-- What the program leaves. -/
structure Report where
  code : Nat := 0
  output : String := ""
  errors : String := ""
  deriving DecidableEq, Repr

/-- The wording of a usage error. -/
def UsageError.message : UsageError → String
  | noArguments => "missing <FILE>"
  | noFile option => option ++ " requires <FILE>"
  | unknownOption option => "unknown option " ++ option

/-- The file after an option that asks for one. -/
def fileAfter (option : String) : List String → Except UsageError String
  | [] => .error (.noFile option)
  | path :: _ => .ok path

/-- Reads the arguments after the program's name. -/
def Request.ofArguments : List String → Except UsageError Request
  | [] => .error .noArguments
  | first :: rest =>
    if first = "--help" ∨ first = "-h" then .ok .help
    else if first = "--version" ∨ first = "-V" then .ok .version
    else if first = "--tokens" then (fileAfter first rest).map .tokens
    else if first = "--html" then (fileAfter first rest).map .markup
    else if first = "--json" then (fileAfter first rest).map .json
    else if startsWith "-" first.toList then .error (.unknownOption first)
    else .ok (.outline first)

/-- The file a request names. -/
def Request.path? : Request → Option String
  | .help | .version => none
  | .outline path | .tokens path | .markup path | .json path => some path

/-- The program's name and version. -/
def banner : String :=
  "Weft 0.1.0"

/-- The help text. -/
def usage (program : String) : String :=
  banner ++ " - HTML template preprocessor\n" ++
  "\n" ++
  "USAGE:\n" ++
  "    " ++ program ++ " [OPTIONS] <FILE>\n" ++
  "\n" ++
  "OPTIONS:\n" ++
  "    -h, --help          Print this help message\n" ++
  "    -V, --version       Print version information\n" ++
  "    --tokens <FILE>     Print the HTML token stream (directives left literal)\n" ++
  "    --html <FILE>       Print the element tree re-serialized as markup\n" ++
  "    --json <FILE>       Print the element tree as JSON\n" ++
  "\n" ++
  "EXAMPLES:\n" ++
  "    " ++ program ++ " templates/index.hbs\n" ++
  "    " ++ program ++ " --json templates/index.hbs\n" ++
  "\n"

/-- A line of the log; further lines of its message are set in.  It is written as to a
file, so without terminal control. -/
def info (message : String) : String :=
  let setIn := message.toList.map fun c => if c = '\n' then "\n    " else c.toString
  withoutTerminalControl ("[INFO  weft] " ++ String.join setIn ++ "\n")

/-- A complaint. -/
def complaint (message : String) : String :=
  "Error: " ++ message ++ "\n"

/-- The report on a tree: what is written of it, or why there is none. -/
def treeReport (write : List Node → String) (source : String) : Report :=
  match preprocess source with
  | .ok nodes => { output := write nodes }
  | .error e => { code := 1, errors := complaint e.message }

/-- The report on the tokens of a source, whose directives are plain text here. -/
def tokensReport (source : String) : Report :=
  let tokens := Lexer.tokenize source
  { output := String.join (tokens.map (·.dump ++ "\n"))
    errors := info (toString tokens.length ++ " tokens") }

/-- The report on a file that was read. -/
def Request.reportOn (source : String) : Request → Report
  | .help | .version => {}
  | .outline _ => treeReport Node.outline source
  | .tokens _ => tokensReport source
  | .markup _ => treeReport (render .standard · ++ "\n") source
  | .json _ => treeReport (fun nodes => (Node.treeJson nodes).indented ++ "\n") source

/-- The report on a request, given how files are read. -/
def Request.report (program : String) (read : String → Except ReadFailure String) (r : Request) :
    Report :=
  match r.path? with
  | none => { output := if r = .help then usage program else banner ++ "\n" }
  | some path =>
    match read path with
    | .error failure =>
      { code := 1, errors := complaint ("Failed to read " ++ path ++ ": " ++ failure.message) }
    | .ok source =>
      let report := r.reportOn source
      let size := info ("Read " ++ toString source.utf8ByteSize ++ " bytes from " ++ path)
      { report with errors := size ++ report.errors }

/-- The report on arguments. -/
def report (program : String) (arguments : List String)
    (read : String → Except ReadFailure String) : Report :=
  match Request.ofArguments arguments with
  | .ok request => request.report program read
  | .error e => { code := 1, output := usage program, errors := complaint e.message }

end CommandLine

end TemplateTree
