/-
Windows: directives as they stand in the source.

A window is what lies between an opening delimiter and the first delimiter that may
close it.  Two things bear on where that is.  A triple opening asks for a triple
closing; and a long comment, which begins with an exclamation mark and two dashes,
ends only after two more dashes, so that it may hold whole directives.  A tilde
just inside a delimiter is not part of the body: it asks for the blanks on that side
of the window to be dropped.

`Window.spelling` writes a window out again, and `spelling_append` says that reading
lost nothing: the spelling with the rest of the text is the text that was read.
-/
import TemplateTree.Braces
import TemplateTree.Text.Search

namespace TemplateTree

/-- A directive in the source. -/
structure Window where
  /-- Does it stand between three braces? -/
  triple : Bool
  /-- Is the blank text before it dropped? -/
  trimLeft : Bool
  body : List Char
  /-- Is the blank text after it dropped? -/
  trimRight : Bool
  deriving DecidableEq, Repr

namespace Window

/-- The delimiter that closes a window. -/
def closing (triple : Bool) : String :=
  if triple then closeTriple else closeBraces

/-- The delimiter that opens a window. -/
def opening (triple : Bool) : String :=
  if triple then openTriple else openBraces

/-- A tilde, if there is one. -/
def tilde (present : Bool) : List Char :=
  if present then ['~'] else []

/-- The window as it stands in the source. -/
def spelling (w : Window) : List Char :=
  (opening w.triple).toList ++ tilde w.trimLeft ++ w.body ++ tilde w.trimRight ++
    (closing w.triple).toList

/-- The dashes that end a long comment where the text goes on like this: with a tilde
after them, or without. -/
def commentEnd (text : List Char) : Option String :=
  if startsWith ("--" ++ closeBraces) text then some "--"
  else if startsWith ("--~" ++ closeBraces) text then some "--~"
  else none

/-- The text up to the closing delimiter of a window that is no long comment, and the
text after it. -/
def readPlain (triple : Bool) (text : List Char) : Option (List Char × List Char) :=
  (splitWhere (startsWith (closing triple)) text).map fun (inner, after) =>
    (inner, after.drop (closing triple).length)

/-- The same for a long comment; `text` begins after its opening dashes. -/
def readComment (text : List Char) : Option (List Char × List Char) :=
  match splitWhere (fun after => (commentEnd after).isSome) text with
  | none => none
  | some (inner, after) =>
    (commentEnd after).map fun dashes =>
      ("!--".toList ++ inner ++ dashes.toList, after.drop (dashes.length + closeBraces.length))

/-- The text between the delimiters, the tilde at its end set apart. -/
def ofInner (triple trimLeft : Bool) (inner : List Char) : Window :=
  if inner.getLast? = some '~' then ⟨triple, trimLeft, inner.dropLast, true⟩
  else ⟨triple, trimLeft, inner, false⟩

/-- Reads a window from the place after its opening delimiter and tilde. -/
def readInner (triple trimLeft : Bool) (text : List Char) : Option (Window × List Char) :=
  let found :=
    if !triple && startsWith "!--" text then readComment (text.drop 3) else readPlain triple text
  found.map fun (inner, after) => (ofInner triple trimLeft inner, after)

/-- Reads a window from the place after two opening braces, and gives the text after the
window; nothing if the window is never closed. -/
def read? (text : List Char) : Option (Window × List Char) :=
  let (triple, text) :=
    match text with
    | '\x7b' :: rest => (true, rest)
    | text => (false, text)
  match text with
  | '~' :: rest => readInner triple true rest
  | text => readInner triple false text

/-! ### Nothing is lost -/

/-- A text that begins with some characters is those characters and what follows. -/
theorem drop_of_startsWith {start : String} {text : List Char} (h : startsWith start text = true) :
    start.toList ++ text.drop start.length = text := by
  obtain ⟨rest, rfl⟩ := List.isPrefixOf_iff_prefix.1 h
  simp [← String.length_toList]

theorem readPlain_append {triple : Bool} {text inner after : List Char}
    (h : readPlain triple text = some (inner, after)) :
    inner ++ (closing triple).toList ++ after = text := by
  unfold readPlain at h
  rw [Option.map_eq_some_iff] at h
  obtain ⟨⟨before, rest⟩, hs, heq⟩ := h
  cases heq
  rw [List.append_assoc, drop_of_startsWith (splitWhere_found hs), splitWhere_append hs]

theorem commentEnd_append {text : List Char} {dashes : String} (h : commentEnd text = some dashes) :
    dashes.toList ++ (closing false).toList ++ text.drop (dashes.length + closeBraces.length) =
      text := by
  unfold commentEnd at h
  split at h
  · rename_i hs
    cases h
    simpa [closing, String.toList_append] using drop_of_startsWith hs
  · split at h
    · rename_i hs
      cases h
      simpa [closing, String.toList_append] using drop_of_startsWith hs
    · cases h

theorem readComment_append {text inner after : List Char}
    (h : readComment text = some (inner, after)) :
    inner ++ (closing false).toList ++ after = "!--".toList ++ text := by
  unfold readComment at h
  split at h
  · cases h
  · rename_i before rest hs
    rw [Option.map_eq_some_iff] at h
    obtain ⟨dashes, hd, heq⟩ := h
    cases heq
    have hrest := commentEnd_append hd
    rw [← splitWhere_append hs]
    simp only [List.append_assoc] at hrest ⊢
    rw [hrest]

theorem spelling_ofInner (triple trimLeft : Bool) (inner : List Char) :
    (ofInner triple trimLeft inner).spelling =
      (opening triple).toList ++ tilde trimLeft ++ inner ++ (closing triple).toList := by
  unfold ofInner
  split
  · rename_i h
    obtain ⟨start, rfl⟩ := List.getLast?_eq_some_iff.1 h
    simp only [spelling, tilde, if_true, List.append_assoc]
    simp
  · simp [spelling, tilde]

theorem readInner_append {triple trimLeft : Bool} {text after : List Char} {w : Window}
    (h : readInner triple trimLeft text = some (w, after)) :
    w.spelling ++ after = (opening triple).toList ++ tilde trimLeft ++ text := by
  unfold readInner at h
  rw [Option.map_eq_some_iff] at h
  obtain ⟨⟨inner, rest⟩, hf, heq⟩ := h
  cases heq
  rw [spelling_ofInner]
  simp only [List.append_assoc, List.append_cancel_left_eq]
  split at hf
  · rename_i hc
    simp only [Bool.and_eq_true, Bool.not_eq_true'] at hc
    have h₁ := readComment_append hf
    have h₂ := drop_of_startsWith hc.2
    rw [hc.1]
    rw [List.append_assoc] at h₁
    rw [h₁]
    exact h₂
  · have h₁ := readPlain_append hf
    rw [List.append_assoc] at h₁
    exact h₁

/-- **Reading loses nothing.**  A window that was read, and the text after it, spell the
text that was there. -/
theorem spelling_append {text after : List Char} {w : Window} (h : read? text = some (w, after)) :
    w.spelling ++ after = openBraces.toList ++ text := by
  unfold read? at h
  split at h
  rename_i triple rest hopening
  have hinner : w.spelling ++ after = (opening triple).toList ++ rest := by
    split at h
    · simpa [tilde] using readInner_append h
    · simpa [tilde] using readInner_append h
  split at hopening
  · cases hopening
    simpa [opening, openTriple, openBraces] using hinner
  · cases hopening
    exact hinner

/-- A window takes up room in the source. -/
theorem length_after {text after : List Char} {w : Window} (h : read? text = some (w, after)) :
    after.length < text.length := by
  have hl := congrArg List.length (spelling_append h)
  have hc : 2 ≤ (closing w.triple).toList.length := by cases w.triple <;> decide
  have ho : 2 ≤ (opening w.triple).toList.length := by cases w.triple <;> decide
  have h2 : openBraces.toList.length = 2 := by decide
  simp only [List.length_append, spelling, h2] at hl
  omega

end Window

end TemplateTree
