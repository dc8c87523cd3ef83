/-
Quoted text.

Wherever the program shows a text to a person (the outline of a tree, the list of
tokens, the log) it puts it in double quotes and keeps it on one line.  Six
characters have a short form after a backslash, characters that cannot be seen are
given by number, all others stand for themselves.  A single quote needs no mark,
because only the double quote ends the quotation.
-/
import TemplateTree.Text.Unshown

namespace TemplateTree

/-- A number in base sixteen, lower case, without leading zeros. -/
def hexDigits (n : Nat) : String :=
  String.ofList (Nat.toDigits 16 n)

/-- A character given by number: `\u`, and the number in braces. -/
def numberedChar (c : Char) : String :=
  "\\u\x7b" ++ hexDigits c.toNat ++ "\x7d"

/-- One character of a quotation. -/
def quotedChar (c : Char) : String :=
  if c = '\x00' then "\\0"
  else if c = '\t' then "\\t"
  else if c = '\n' then "\\n"
  else if c = '\r' then "\\r"
  else if c = '\"' then "\\\""
  else if c = '\\' then "\\\\"
  else if isUnshown c then numberedChar c
  else c.toString

/-- A text in double quotes, on one line. -/
def quoted (text : String) : String :=
  "\"" ++ String.join (text.toList.map quotedChar) ++ "\""

example : quoted "a\t\"\u200b" = "\"a\\t\\\"\\u\x7b200b\x7d\"" := by
  decide +kernel

end TemplateTree
