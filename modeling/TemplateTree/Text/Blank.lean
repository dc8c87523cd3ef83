/-
Blank characters.

A template is read by two readers that disagree on what a blank is.  The reader
of directives, and the outline printer, go by Unicode's `White_Space` property;
the reader of markup knows five ASCII characters and nothing else.  So a no-break
space ends a word inside a directive, yet it is part of a name inside a tag.

Both sets live here, with the trimming that goes by the larger one.
-/

namespace TemplateTree

/-- Unicode's `White_Space` property: twenty-five characters in ten ranges. -/
def isBlank (c : Char) : Bool :=
  let n := c.toNat
  (0x09 ≤ n && n ≤ 0x0D) || n == 0x20 || n == 0x85 || n == 0xA0 || n == 0x1680 ||
    (0x2000 ≤ n && n ≤ 0x200A) || n == 0x2028 || n == 0x2029 || n == 0x202F ||
    n == 0x205F || n == 0x3000

/-- The blanks of markup: space, tab, line feed, carriage return, form feed. -/
def isMarkupSpace (c : Char) : Bool :=
  c == ' ' || c == '\t' || c == '\n' || c == '\r' || c == '\x0C'

/-! ### Trimming -/

/-- Drops the blanks a text begins with. -/
def trimStart (text : List Char) : List Char :=
  text.dropWhile isBlank

/-- Drops the blanks a text ends with. -/
def trimEnd (text : List Char) : List Char :=
  (text.reverse.dropWhile isBlank).reverse

/-- Drops the blanks at both ends. -/
def trim (text : List Char) : List Char :=
  trimEnd (trimStart text)

/-- What is left after trimming the start is a tail of the text. -/
theorem trimStart_suffix (text : List Char) : trimStart text <:+ text :=
  List.dropWhile_suffix isBlank

/-- What is left after trimming the end is a beginning of the text. -/
theorem trimEnd_isPrefixOf (text : List Char) : trimEnd text <+: text := by
  have h := List.dropWhile_suffix (l := text.reverse) isBlank
  simpa [trimEnd] using List.reverse_prefix.2 h

theorem length_trimStart_le (text : List Char) : (trimStart text).length ≤ text.length :=
  (trimStart_suffix text).length_le

/-- Nothing is left to trim at the start of a trimmed text. -/
theorem trimStart_head_not_blank {text rest : List Char} {c : Char}
    (h : trimStart text = c :: rest) : isBlank c = false := by
  have h' := List.head?_dropWhile_not isBlank text
  rw [show text.dropWhile isBlank = c :: rest from h] at h'
  simpa using h'

end TemplateTree
