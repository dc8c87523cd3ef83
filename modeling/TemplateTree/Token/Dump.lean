/-
Tokens in full.

The list of tokens on the command line, and the log, show each token with all its
parts, every part under its name, one token a line.  Texts are quoted, so a line
break inside one breaks no line.
-/
import TemplateTree.Text.Quoted
import TemplateTree.Token.Basic

namespace TemplateTree

namespace Dump

/-- Parts with commas between them. -/
def row (parts : List String) : String :=
  String.intercalate ", " parts

/-- A list. -/
def list (items : List String) : String :=
  "[" ++ row items ++ "]"

/-- A kind with what it holds. -/
def variant (kind content : String) : String :=
  kind ++ "(" ++ content ++ ")"

/-- A record with its fields. -/
def record (kind : String) (fields : List (String × String)) : String :=
  kind ++ " \x7b " ++ row (fields.map fun (name, value) => name ++ ": " ++ value) ++ " \x7d"

/-- A truth value. -/
def bool (value : Bool) : String :=
  if value then "true" else "false"

/-- Numbers here keep a decimal place, and very large or small ones have an exponent. -/
def numberStyle : NumberStyle where
  tie := .away
  positional := some (-4, 15)
  afterWhole := ".0"
  plus := ""
  notANumber := "NaN"
  infinity := ("inf", "-inf")

example : ["0", "3", "1e15", "1e16", "1e-4", "1e-5", "1.5e-7"].map (Number.normalized numberStyle) =
    ["0.0", "3.0", "1000000000000000.0", "1e16", "0.0001", "1e-5", "1.5e-7"].map some := by
  decide +kernel

end Dump

open Dump

/-- A parameter in full. -/
def Param.dump : Param → String
  | .path name => variant "Path" (quoted name)
  | .string value => variant "String" (quoted value)
  | .number value => variant "Number" (value.text numberStyle)
  | .boolean value => variant "Boolean" (bool value)

/-- An expression in full. -/
def Expression.dump (e : Expression) : String :=
  record "Expression" [
    ("path", quoted e.path),
    ("params", list (e.params.map Param.dump)),
    ("hash", list (e.hash.map fun (key, value) => "(" ++ row [quoted key, value.dump] ++ ")"))]

/-- An expression in place, in full. -/
def Mustache.dump (m : Mustache) : String :=
  record "MustacheStatement" [("expression", m.expression.dump), ("escaped", bool m.escaped)]

/-- A fragment in full. -/
def Fragment.dump : Fragment → String
  | .text content => variant "Text" (quoted content)
  | .mustache m => variant "Mustache" m.dump

/-- An attribute in full. -/
def Attribute.dump (a : Attribute) : String :=
  record "Attribute" [("name", quoted a.name), ("value", list (a.value.map Fragment.dump))]

/-- What tags have in common, in full. -/
def Tag.dump (t : Tag) : String :=
  record "TagData" [("name", quoted t.name), ("attributes", list (t.attributes.map Attribute.dump))]

/-- A start tag in full. -/
def StartTag.dump (t : StartTag) : String :=
  record "StartTag" [
    ("data", t.toTag.dump),
    ("self_closing", bool t.selfClosing),
    ("modifiers", list (t.modifiers.map Mustache.dump))]

/-- A token in full. -/
def Token.dump : Token → String
  | .text content => variant "Text" (quoted content)
  | .comment content => variant "Comment" (quoted content)
  | .startTag tag => variant "StartTag" tag.dump
  | .endTag tag => variant "EndTag" (record "EndTag" [("data", tag.dump)])

end TemplateTree
