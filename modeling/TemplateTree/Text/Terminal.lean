/-
Text without terminal control.

Characters can steer a terminal: an escape character opens a sequence that sets a
colour, moves the cursor or names a window.  A log that is not shown on a terminal
leaves such sequences out, and with them all other control characters except the blanks
of markup, and the delete character.

A sequence goes on until its own kind of end.  A tab or a line end inside one is shown
all the same, and then so is the text after it: the sequence is taken up again at the
next character that cannot be shown.  The two facts at the end say what is left, and of
which texts nothing is left out.
-/
import TemplateTree.Text.Blank

namespace TemplateTree

/-- How far into a control sequence a text has come. -/
inductive TerminalState
  /-- In no sequence. -/
  | text
  /-- After an escape character. -/
  | escape
  /-- In an escape sequence of more than two characters. -/
  | longEscape
  /-- In a control sequence, `ESC [`. -/
  | control
  /-- In a device control string, `ESC P`, before its parameters. -/
  | device
  /-- In the parameters of a device control string. -/
  | deviceParameter
  /-- Between the parameters of a device control string and its body. -/
  | deviceIntermediate
  /-- In the body of a string, of a device or for an application. -/
  | body
  /-- In a command to the operating system, `ESC ]`. -/
  | command
  deriving DecidableEq, Repr

namespace TerminalState

/-- Is the byte 9C, the end of a string's body, one of the bytes of this character? -/
def endsBody (c : Char) : Bool :=
  (String.utf8EncodeChar c).contains 0x9C

/-- What follows the escape character. -/
def afterEscape (n : Nat) : TerminalState :=
  if 0x20 ≤ n && n ≤ 0x2F then longEscape
  else if n = 0x50 then device
  else if n = 0x58 || n = 0x5E || n = 0x5F then body
  else if n = 0x5B then control
  else if n = 0x5D then command
  else if 0x30 ≤ n && n ≤ 0x7E then text
  else escape

/-- Goes past a character that is not shown. -/
def after (s : TerminalState) (c : Char) : TerminalState :=
  let n := c.toNat
  if n = 0x1B then escape
  else if n = 0x18 || n = 0x1A then text
  else
    match s with
    | text => text
    | escape => afterEscape n
    | longEscape => if 0x30 ≤ n && n ≤ 0x7E then text else longEscape
    | control => if 0x40 ≤ n && n ≤ 0x7E then text else control
    | device =>
      if 0x20 ≤ n && n ≤ 0x2F then deviceIntermediate
      else if 0x30 ≤ n && n ≤ 0x3F then deviceParameter
      else if 0x40 ≤ n && n ≤ 0x7E then body
      else device
    | deviceParameter =>
      if 0x20 ≤ n && n ≤ 0x2F then deviceIntermediate
      else if 0x3C ≤ n && n ≤ 0x7E then body
      else deviceParameter
    | deviceIntermediate => if 0x30 ≤ n && n ≤ 0x7E then body else deviceIntermediate
    | body => if endsBody c then text else body
    | command => if n = 0x07 then text else command

/-- Is a character shown in this state? -/
def shows (s : TerminalState) (c : Char) : Bool :=
  match s with
  | text => isMarkupSpace c || (0x20 ≤ c.toNat && c.toNat ≠ 0x7F)
  | escape | longEscape | control => isMarkupSpace c && c ≠ ' '
  | _ => false

end TerminalState

/-- The characters shown of a text.  While text is being shown, the state is the one to
which the next character that cannot be shown returns. -/
def shownChars (showing : Bool) (s : TerminalState) : List Char → List Char
  | [] => []
  | c :: rest =>
    if (if showing then .text else s).shows c then
      c :: shownChars true (if c.toNat < 0x80 then s else .text) rest
    else shownChars false (s.after c) rest

/-- A text without terminal control. -/
def withoutTerminalControl (text : String) : String :=
  String.ofList (shownChars true .text text.toList)

/-! ### What is left -/

theorem TerminalState.shows_text_of_shows {s : TerminalState} {c : Char} (h : s.shows c = true) :
    TerminalState.text.shows c = true := by
  cases s <;> simp_all [shows]

/-- All that is left can be shown. -/
theorem shows_of_mem_shownChars {showing : Bool} {s : TerminalState} {text : List Char} {c : Char}
    (h : c ∈ shownChars showing s text) : TerminalState.text.shows c = true := by
  induction text generalizing showing s with
  | nil => cases h
  | cons d rest ih =>
    rw [shownChars] at h
    by_cases hd : (if showing then TerminalState.text else s).shows d = true
    · rw [if_pos hd] at h
      rcases List.mem_cons.1 h with rfl | hmem
      · exact TerminalState.shows_text_of_shows hd
      · exact ih hmem
    · rw [if_neg hd] at h
      exact ih h

/-- A text of which all can be shown is left as it is. -/
theorem shownChars_eq_self {text : List Char} (h : ∀ c ∈ text, TerminalState.text.shows c = true)
    (s : TerminalState) : shownChars true s text = text := by
  induction text generalizing s with
  | nil => rfl
  | cons c rest ih =>
    rw [List.forall_mem_cons] at h
    simp [shownChars, h.1, ih h.2]

/-- **Terminal control is taken away at once**: nothing is left that would be taken away if what is
left were looked at again. -/
theorem withoutTerminalControl_idempotent (text : String) :
    withoutTerminalControl (withoutTerminalControl text) = withoutTerminalControl text := by
  have hshows : ∀ c ∈ shownChars true .text text.toList, TerminalState.text.shows c = true :=
    fun _ hmem => shows_of_mem_shownChars hmem
  rw [withoutTerminalControl, withoutTerminalControl, String.toList_ofList,
    shownChars_eq_self hshows]

example : withoutTerminalControl "a\x1b[31mb\x07\n" = "ab\n" := by
  decide +kernel

end TemplateTree
