/-
Expressions: what a directive asks for.

An expression is a path, the positional parameters after it, and the named ones
after those, each in the order written.  Nothing in this project evaluates one; it
is carried from the directive into the tree and written out again.

The written form is the source form with its blanks made single, its quotes made
double and its numbers made plain.  Only the double quote is marked inside a
string, so a backslash that happens to stand before one reads differently
afterwards.
-/
import TemplateTree.Braces
import TemplateTree.Json

namespace TemplateTree

/-- A parameter. -/
inductive Param
  | path (name : String)
  | string (value : String)
  | number (value : Number)
  | boolean (value : Bool)
  deriving DecidableEq, Repr

/-- A path with its parameters. -/
structure Expression where
  path : String
  params : List Param := []
  /-- The named parameters, in the order written; a name may come twice. -/
  hash : List (String × Param) := []
  deriving DecidableEq, Repr

/-- An expression whose value stands in place of the directive. -/
structure Mustache where
  expression : Expression
  /-- Is the value escaped for markup? -/
  escaped : Bool := true
  deriving DecidableEq, Repr

/-! ### The written form -/

/-- Numbers in a template have no exponent and no needless point. -/
def Expression.numberStyle : NumberStyle where
  tie := .away
  positional := none
  afterWhole := ""
  plus := ""
  notANumber := "NaN"
  infinity := ("inf", "-inf")

example : ["0", "-0", "3.50", "1e16", "5e-7", "1e400", "-inf", "nan"].map
    (Number.normalized Expression.numberStyle) =
      ["0", "-0", "3.5", "10000000000000000", "0.0000005", "inf", "-inf", "NaN"].map some := by
  decide +kernel

/-- A text with every double quote behind a backslash. -/
def markQuotes (text : String) : String :=
  String.join (text.toList.map fun c => if c = '\"' then "\\\"" else c.toString)

/-- The written form of a parameter. -/
def Param.text : Param → String
  | .path name => name
  | .string value => "\"" ++ markQuotes value ++ "\""
  | .number value => value.text Expression.numberStyle
  | .boolean value => if value then "true" else "false"

/-- The written form of an expression. -/
def Expression.text (e : Expression) : String :=
  e.path ++ String.join (e.params.map fun param => " " ++ param.text) ++
    String.join (e.hash.map fun (key, value) => " " ++ key ++ "=" ++ value.text)

/-- The written form of an expression in place, with its delimiters. -/
def Mustache.text (m : Mustache) : String :=
  if m.escaped then inBraces m.expression.text else inTriple m.expression.text

/-! ### As JSON -/

/-- A parameter as JSON. -/
def Param.toJson : Param → Json
  | .path name => .object [("Path", .string name)]
  | .string value => .object [("String", .string value)]
  | .number value => .object [("Number", .number value)]
  | .boolean value => .object [("Boolean", .bool value)]

/-- An expression as JSON. -/
def Expression.toJson (e : Expression) : Json :=
  .object [
    ("path", .string e.path),
    ("params", .array (e.params.map Param.toJson)),
    ("hash", .array (e.hash.map fun (key, value) => .array [.string key, value.toJson]))]

/-- An expression in place, as JSON. -/
def Mustache.toJson (m : Mustache) : Json :=
  .object [("expression", m.expression.toJson), ("escaped", .bool m.escaped)]

end TemplateTree
