/-
Letter case.

Names of tags and attributes are compared without regard to the case of ASCII
letters, and only of those: letters outside ASCII stay as they are.
-/

namespace TemplateTree

/-- A text with its ASCII letters in lower case. -/
def asciiLower (text : String) : String :=
  String.ofList (text.toList.map Char.toLower)

/-- A text with its ASCII letters in upper case. -/
def asciiUpper (text : String) : String :=
  String.ofList (text.toList.map Char.toUpper)

/-- Are two texts the same but for the case of ASCII letters? -/
def sameIgnoringCase (first second : String) : Bool :=
  asciiLower first == asciiLower second

/-- Is this an ASCII letter? -/
def isAsciiLetter (c : Char) : Bool :=
  ('a' ≤ c && c ≤ 'z') || ('A' ≤ c && c ≤ 'Z')

@[simp] theorem toList_asciiLower (text : String) :
    (asciiLower text).toList = text.toList.map Char.toLower := by
  simp [asciiLower]

@[simp] theorem asciiLower_append (first second : String) :
    asciiLower (first ++ second) = asciiLower first ++ asciiLower second := by
  apply String.toList_inj.1
  simp

end TemplateTree
