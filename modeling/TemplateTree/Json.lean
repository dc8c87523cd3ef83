/-
Trees as JSON.

The program hands its results to other programs as JSON text, in one of two
layouts: all on one line without a blank, or indented.  Both are one printer; a
layout only says what is written where a line may end and after a name.

Numbers follow JSON's own style, so the same number reads differently here and in a
template.
-/
import TemplateTree.Number.Style
import TemplateTree.Text.Quoted

namespace TemplateTree

/-- A JSON value; the fields of an object keep their order. -/
inductive Json
  | null
  | bool (value : Bool)
  | number (value : Number)
  | string (value : String)
  | array (items : List Json)
  | object (fields : List (String × Json))

namespace Json

/-- JSON has no name for the values that are not finite, so they are all `null`; a whole
number keeps a decimal place, and an exponent keeps its sign. -/
def numberStyle : NumberStyle where
  tie := .even
  positional := some (-5, 15)
  afterWhole := ".0"
  plus := "+"
  notANumber := "null"
  infinity := ("null", "null")

example : ["0", "-0", "3", "1e15", "1e16", "1e-5", "1e-6", "1.5e-7", "1e400"].map
    (Number.normalized numberStyle) =
      ["0.0", "-0.0", "3.0", "1000000000000000.0", "1e+16", "0.00001", "1e-6", "1.5e-7", "null"].map
        some := by
  decide +kernel

-- two decimals of seventeen digits are equally near to `2 ^ -25`
example : Number.normalized numberStyle "2.98023223876953125e-8" = some "2.9802322387695312e-8" := by
  decide +kernel

/-- One character inside a JSON string.  Only quotes, backslashes and control
characters may not stand for themselves. -/
def stringChar (c : Char) : String :=
  if c = '\"' then "\\\""
  else if c = '\\' then "\\\\"
  else if c = '\x08' then "\\b"
  else if c = '\x0C' then "\\f"
  else if c = '\n' then "\\n"
  else if c = '\r' then "\\r"
  else if c = '\t' then "\\t"
  else if c.toNat < 0x20 then (if c.toNat < 0x10 then "\\u000" else "\\u00") ++ hexDigits c.toNat
  else c.toString

/-- A JSON string. -/
def stringText (text : String) : String :=
  "\"" ++ String.join (text.toList.map stringChar) ++ "\""

/-- What the two layouts differ in. -/
structure Layout where
  /-- Written where a line may end; the number tells how deep the next line is. -/
  lineBreak : Nat → String
  /-- Written between a name and its value. -/
  colon : String

/-- All on one line. -/
def Layout.compact : Layout :=
  ⟨fun _ => "", ":"⟩

/-- Two blanks a level. -/
def Layout.indented : Layout :=
  ⟨fun depth => "\n" ++ String.ofList (List.replicate (2 * depth) ' '), ": "⟩

/-- The parts of an array or object between its brackets; without parts, nothing is
between them. -/
def enclosed (layout : Layout) (depth : Nat) (left right : String) (parts : List String) : String :=
  if parts.isEmpty then left ++ right
  else
    left ++ layout.lineBreak (depth + 1) ++
      String.intercalate ("," ++ layout.lineBreak (depth + 1)) parts ++
      layout.lineBreak depth ++ right

mutual

/-- A value that begins on a line `depth` levels deep. -/
def textAt (layout : Layout) (depth : Nat) : Json → String
  | .null => "null"
  | .bool value => if value then "true" else "false"
  | .number value => value.text numberStyle
  | .string value => stringText value
  | .array items => enclosed layout depth "[" "]" (itemTexts layout (depth + 1) items)
  | .object fields => enclosed layout depth "\x7b" "\x7d" (fieldTexts layout (depth + 1) fields)

/-- The values of an array, each on a line `depth` levels deep. -/
def itemTexts (layout : Layout) (depth : Nat) : List Json → List String
  | [] => []
  | item :: rest => textAt layout depth item :: itemTexts layout depth rest

/-- The fields of an object, each on a line `depth` levels deep. -/
def fieldTexts (layout : Layout) (depth : Nat) : List (String × Json) → List String
  | [] => []
  | field :: rest => fieldText layout depth field :: fieldTexts layout depth rest

/-- A name and its value. -/
def fieldText (layout : Layout) (depth : Nat) : String × Json → String
  | (name, value) => stringText name ++ layout.colon ++ textAt layout depth value

end

/-- A value on one line. -/
def compact (value : Json) : String :=
  value.textAt .compact 0

/-- A value on indented lines. -/
def indented (value : Json) : String :=
  value.textAt .indented 0

end Json

end TemplateTree
