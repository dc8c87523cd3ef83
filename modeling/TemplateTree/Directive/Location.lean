/-
Places in a source.

A place is a line and a column, both counted from one, and an offset in bytes from
zero.  The column counts characters, the offset counts the bytes of their UTF-8
form.  A place is what a reader arrives at by going forward one character at a
time, so `advance` is the whole definition; the rest is a walk.
-/

namespace TemplateTree

/-- A place between two characters of a source. -/
structure Location where
  line : Nat
  column : Nat
  /-- In bytes. -/
  offset : Nat
  deriving DecidableEq, Repr

namespace Location

/-- Before the first character. -/
def start : Location :=
  ⟨1, 1, 0⟩

/-- Past one character; a line feed is the last character of its line. -/
def advance (here : Location) (c : Char) : Location :=
  if c = '\n' then ⟨here.line + 1, 1, here.offset + c.utf8Size⟩
  else ⟨here.line, here.column + 1, here.offset + c.utf8Size⟩

/-- Past a text. -/
def after (here : Location) (text : List Char) : Location :=
  text.foldl advance here

/-- The place `offset` bytes into a source, looked for from `here` on.  Beyond the end
it is the end; inside a character there is none. -/
def search (offset : Nat) (here : Location) : List Char → Option Location
  | [] => if here.offset ≤ offset then some here else none
  | c :: rest =>
    if here.offset < offset then search offset (here.advance c) rest
    else if here.offset = offset then some here
    else none

/-- The place `offset` bytes into a source. -/
def at? (source : String) (offset : Nat) : Option Location :=
  search offset start source.toList

/-- The short form, without the offset. -/
def text (here : Location) : String :=
  toString here.line ++ ":" ++ toString here.column

/-! ### Small facts -/

@[simp] theorem after_nil (here : Location) : here.after [] = here := rfl

@[simp] theorem after_cons (here : Location) (c : Char) (rest : List Char) :
    here.after (c :: rest) = (here.advance c).after rest := rfl

theorem after_append (here : Location) (first second : List Char) :
    here.after (first ++ second) = (here.after first).after second :=
  List.foldl_append ..

/-- Going forward counts the bytes gone by. -/
theorem offset_advance (here : Location) (c : Char) :
    (here.advance c).offset = here.offset + c.utf8Size := by
  unfold advance
  split <;> rfl

end Location

end TemplateTree
