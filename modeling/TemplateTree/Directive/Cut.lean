/-
A source cut into gaps and windows.

Cutting knows nothing of what the windows say.  It goes forward to the next opening
delimiter, reads the window there, and goes on after it.  A window that is never
closed ends the cut: what it would have held is left in one piece with the gap
before it.

`Cut.spelling_cut` says that the pieces, laid end to end, are the source.
-/
import TemplateTree.Directive.Location
import TemplateTree.Directive.Window
import TemplateTree.Text.Blank

namespace TemplateTree

/-- A window with the gap before it. -/
structure Segment where
  /-- The text since the window before, or since the start. -/
  gap : List Char
  /-- Did the window before ask for the blanks after it to be dropped? -/
  trimStart : Bool
  window : Window
  /-- Where the window opens. -/
  location : Location
  deriving DecidableEq, Repr

/-- A source, cut. -/
structure Cut where
  segments : List Segment
  /-- The text after the last window that is closed. -/
  rest : List Char
  /-- Did the last window ask for the blanks after it to be dropped? -/
  trimRest : Bool
  /-- Where in the rest a window opens that is never closed. -/
  unclosed : Option Location
  deriving DecidableEq, Repr

/-- The gap of a segment without the blanks that the windows on either side drop. -/
def Segment.text (s : Segment) : List Char :=
  let text := if s.trimStart then TemplateTree.trimStart s.gap else s.gap
  if s.window.trimLeft then trimEnd text else text

/-- The last gap without the blanks that the last window drops. -/
def Cut.text (c : Cut) : List Char :=
  if c.trimRest then trimStart c.rest else c.rest

/-- Cuts a text that begins at `here`; `trimmed` tells whether a window ends there that
drops the blanks after it. -/
def Cut.ofText (here : Location) (trimmed : Bool) (text : List Char) : Cut :=
  match _hs : splitWhere (startsWith openBraces) text with
  | none => ⟨[], text, trimmed, none⟩
  | some (gap, opened) =>
    let opener := here.after gap
    match _hw : Window.read? (opened.drop 2) with
    | none => ⟨[], text, trimmed, some opener⟩
    | some (window, after) =>
      let later := ofText (opener.after window.spelling) window.trimRight after
      { later with segments := ⟨gap, trimmed, window, opener⟩ :: later.segments }
termination_by text.length
decreasing_by
  have h₁ := Window.length_after _hw
  have h₂ := congrArg List.length (splitWhere_append _hs)
  simp only [List.length_drop, List.length_append] at h₁ h₂
  omega

/-- Cuts a whole source. -/
def Cut.ofSource (source : String) : Cut :=
  Cut.ofText .start false source.toList

/-- The pieces, laid end to end. -/
def Cut.spelling (c : Cut) : List Char :=
  c.segments.flatMap (fun s => s.gap ++ s.window.spelling) ++ c.rest

/-- **Cutting loses nothing.** -/
theorem Cut.spelling_ofText (here : Location) (trimmed : Bool) (text : List Char) :
    (Cut.ofText here trimmed text).spelling = text := by
  fun_induction Cut.ofText here trimmed text with
  | case1 => simp [spelling]
  | case2 => simp [spelling]
  | case3 here trimmed text gap opened hs opener window after hw later ih =>
    have h₁ := Window.spelling_append hw
    have h₂ := splitWhere_append hs
    have h₃ : openBraces.toList ++ opened.drop 2 = opened :=
      Window.drop_of_startsWith (splitWhere_found hs)
    have h₄ : (later.segments.flatMap fun s => s.gap ++ s.window.spelling) ++ later.rest = after := ih
    simp only [spelling, List.flatMap_cons, List.append_assoc, h₄]
    rw [h₁, h₃, h₂]

end TemplateTree
