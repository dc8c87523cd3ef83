/-
Texts cut at offsets.

A place in a source may be given by the bytes before it, and then a text is cut there only if a
character ends at that place.  `splitAt?` is the cut; a slice from, up to or between offsets is made
of it, and is nothing where one of its ends lies inside a character or beyond the text.
`splitAt?_eq_some_iff` says all there is to say about it: the two sides are the text, and the first
has that many bytes.

A search for a text gives such an offset.  Counting the lines before an offset is a second way to
find the place there, and it is the place that one arrives at character by character.
-/
import TemplateTree.Proofs.Recut

namespace TemplateTree

/-! ### Bytes -/

/-- How many bytes the UTF-8 form of a text has. -/
def bytes (text : List Char) : Nat :=
  (String.ofList text).utf8ByteSize

@[simp] theorem bytes_nil : bytes [] = 0 := rfl

@[simp] theorem bytes_append (first second : List Char) :
    bytes (first ++ second) = bytes first + bytes second := by
  rw [bytes, String.ofList_append, String.utf8ByteSize_append]
  rfl

@[simp] theorem bytes_cons (c : Char) (rest : List Char) :
    bytes (c :: rest) = c.utf8Size + bytes rest := by
  have hfirst : bytes [c] = c.utf8Size := String.utf8ByteSize_singleton
  rw [← List.singleton_append, bytes_append, hfirst]

/-- A text has bytes unless it is empty. -/
theorem bytes_eq_zero_iff {text : List Char} : bytes text = 0 ↔ text = [] := by
  cases text with
  | nil => simp
  | cons c rest =>
    have hsize := c.utf8Size_pos
    simp only [bytes_cons, List.cons_ne_nil, iff_false]
    omega

/-! ### Slices -/

/-- The text before an offset, and the text from there on. -/
def splitAt? : List Char → Nat → Option (List Char × List Char)
  | text, 0 => some ([], text)
  | [], _ + 1 => none
  | c :: rest, offset + 1 =>
    if c.utf8Size ≤ offset + 1 then
      (splitAt? rest (offset + 1 - c.utf8Size)).map fun (before, after) => (c :: before, after)
    else none

/-- The text up to an offset. -/
def upTo? (text : List Char) (stop : Nat) : Option (List Char) :=
  (splitAt? text stop).map Prod.fst

/-- The text from an offset on. -/
def from? (text : List Char) (start : Nat) : Option (List Char) :=
  (splitAt? text start).map Prod.snd

/-- The text between two offsets. -/
def slice? (text : List Char) (start stop : Nat) : Option (List Char) :=
  if start ≤ stop then (from? text start).bind (upTo? · (stop - start)) else none

/-- **A text is cut at an offset exactly where a character ends.** -/
theorem splitAt?_eq_some_iff {text before after : List Char} {offset : Nat} :
    splitAt? text offset = some (before, after) ↔
      text = before ++ after ∧ bytes before = offset := by
  fun_induction splitAt? text offset generalizing before with
  | case1 text =>
    constructor
    · rintro h
      cases h
      exact ⟨rfl, rfl⟩
    · rintro ⟨rfl, hbytes⟩
      rw [bytes_eq_zero_iff.mp hbytes]
      rfl
  | case2 offset =>
    constructor
    · rintro h
      cases h
    · rintro ⟨htext, hbytes⟩
      rw [(List.append_eq_nil_iff.mp htext.symm).1] at hbytes
      cases hbytes
  | case3 c rest offset hfits ih =>
    rw [Option.map_eq_some_iff]
    constructor
    · rintro ⟨⟨first, second⟩, hsplit, heq⟩
      cases heq
      obtain ⟨rfl, hbytes⟩ := ih.mp hsplit
      exact ⟨rfl, by rw [bytes_cons]; omega⟩
    · rintro ⟨htext, hbytes⟩
      cases before with
      | nil => cases hbytes
      | cons d first =>
        obtain ⟨rfl, htail⟩ := List.cons.inj htext
        rw [bytes_cons] at hbytes
        exact ⟨(first, after), ih.mpr ⟨htail, by omega⟩, rfl⟩
  | case4 c rest offset hfits =>
    constructor
    · rintro h
      cases h
    · rintro ⟨htext, hbytes⟩
      cases before with
      | nil => cases hbytes
      | cons d first =>
        obtain ⟨rfl, -⟩ := List.cons.inj htext
        rw [bytes_cons] at hbytes
        omega

theorem splitAt?_append (before after : List Char) :
    splitAt? (before ++ after) (bytes before) = some (before, after) :=
  splitAt?_eq_some_iff.mpr ⟨rfl, rfl⟩

theorem from?_append (before after : List Char) :
    from? (before ++ after) (bytes before) = some after := by
  rw [from?, splitAt?_append]
  rfl

theorem upTo?_append (before after : List Char) :
    upTo? (before ++ after) (bytes before) = some before := by
  rw [upTo?, splitAt?_append]
  rfl

/-- **A slice is what lies between its ends**, and there is one exactly where both are between
characters, in this order. -/
theorem slice?_eq_some_iff {text middle : List Char} {start stop : Nat} :
    slice? text start stop = some middle ↔
      ∃ before after, text = before ++ (middle ++ after) ∧ bytes before = start ∧
        bytes before + bytes middle = stop := by
  constructor
  · intro h
    unfold slice? at h
    split at h
    · rename_i hle
      obtain ⟨left, hleft, hmiddle⟩ := Option.bind_eq_some_iff.mp h
      obtain ⟨⟨before, found⟩, hbefore, rfl⟩ := Option.map_eq_some_iff.mp hleft
      obtain ⟨⟨part, after⟩, hpart, rfl⟩ := Option.map_eq_some_iff.mp hmiddle
      obtain ⟨rfl, rfl⟩ := splitAt?_eq_some_iff.mp hbefore
      obtain ⟨hfound, hsize⟩ := splitAt?_eq_some_iff.mp hpart
      simp only at hfound
      refine ⟨before, after, by rw [hfound], rfl, ?_⟩
      rw [hsize, Nat.add_sub_cancel' hle]
    · cases h
  · rintro ⟨before, after, rfl, rfl, rfl⟩
    rw [slice?, if_pos (Nat.le_add_right _ _), from?_append, Option.bind_some,
      Nat.add_sub_cancel_left, upTo?_append]

theorem slice?_append (before middle after : List Char) :
    slice? (before ++ (middle ++ after)) (bytes before) (bytes before + bytes middle) =
      some middle :=
  slice?_eq_some_iff.mpr ⟨before, after, rfl, rfl, rfl⟩

/-! ### Searches -/

/-- No other place that is like the one that was found is before it. -/
theorem splitWhere_first {found : List Char → Bool} {text before after : List Char}
    (h : splitWhere found text = some (before, after)) {before' after' : List Char}
    (htext : text = before' ++ after') (hfound : found after' = true) : before <+: before' := by
  rw [← splitWhere_append h] at htext
  rcases List.append_eq_append_iff.mp htext with ⟨part, rfl, -⟩ | ⟨part, hbefore, hafter⟩
  · exact List.prefix_append _ _
  · by_cases hpart : part = []
    · rw [hbefore, hpart, List.append_nil]
    · have hnot := not_found_of_splitWhere h part hpart ⟨before', hbefore.symm⟩
      rw [← hafter, hfound] at hnot
      cases hnot

/-- The offset of the first place where a text begins with some characters. -/
def find? (sought : String) (text : List Char) : Option Nat :=
  (splitWhere (startsWith sought) text).map fun (before, _) => bytes before

/-- The offset of the last place where a character stands. -/
def findLast? (sought : Char) : List Char → Option Nat
  | [] => none
  | c :: rest =>
    match findLast? sought rest with
    | some offset => some (c.utf8Size + offset)
    | none => if c = sought then some 0 else none

theorem findLast?_append_singleton (sought : Char) (text : List Char) (c : Char) :
    findLast? sought (text ++ [c]) =
      if c = sought then some (bytes text) else findLast? sought text := by
  induction text with
  | nil => simp [findLast?]
  | cons d rest ih =>
    rw [List.cons_append, findLast?, ih]
    by_cases hc : c = sought
    · simp [hc]
    · simp [hc, findLast?]

/-! ### Places -/

namespace Location

/-- The place at an offset, by the lines before it.  An offset beyond the end is the end. -/
def byLines? (source : List Char) (offset : Nat) : Option Location := do
  let offset := min offset (bytes source)
  let before ← upTo? source offset
  let lineStart := ((findLast? '\n' before).map (· + 1)).getD 0
  let line ← from? before lineStart
  some ⟨before.count '\n' + 1, line.length + 1, offset⟩

/-- The last line of a text can be cut off, and where one arrives after the text is after as many
characters in as many lines. -/
theorem exists_lastLine (text : List Char) :
    ∃ line, from? text (((findLast? '\n' text).map (· + 1)).getD 0) = some line ∧
      start.after text = ⟨text.count '\n' + 1, line.length + 1, bytes text⟩ := by
  induction text using List.reverseRecOn with
  | nil => exact ⟨[], rfl, rfl⟩
  | append_singleton text c ih =>
    obtain ⟨line, hline, hafter⟩ := ih
    rw [findLast?_append_singleton, after_append, hafter, after_cons, after_nil]
    by_cases hc : c = '\n'
    · subst hc
      refine ⟨[], ?_, by simp [advance]⟩
      have hcut := from?_append (text ++ ['\n']) []
      have hfeed : bytes ['\n'] = 1 := rfl
      rw [List.append_nil, bytes_append, hfeed] at hcut
      simpa using hcut
    · refine ⟨line ++ [c], ?_, by simp [advance, hc]⟩
      obtain ⟨⟨before, found⟩, hsplit, rfl⟩ := Option.map_eq_some_iff.mp hline
      obtain ⟨rfl, hbytes⟩ := splitAt?_eq_some_iff.mp hsplit
      rw [if_neg hc, ← hbytes, List.append_assoc]
      exact from?_append before (found ++ [c])

/-- **Counting lines gives the place that one arrives at.** -/
theorem byLines?_append (before after : List Char) :
    byLines? (before ++ after) (bytes before) = some (start.after before) := by
  obtain ⟨line, hline, hafter⟩ := exists_lastLine before
  have hmin : min (bytes before) (bytes (before ++ after)) = bytes before := by simp
  simp only [byLines?, hmin, upTo?_append, hline, hafter, Option.bind_eq_bind, Option.bind_some]

theorem search_append (here : Location) (before after : List Char) :
    search (here.offset + bytes before) here (before ++ after) = some (here.after before) := by
  induction before generalizing here with
  | nil => cases after <;> simp [search]
  | cons c rest ih =>
    have hsize := c.utf8Size_pos
    have hlater := ih (here.advance c)
    rw [offset_advance, Nat.add_assoc] at hlater
    rw [List.cons_append, search, if_pos (by simp; omega), bytes_cons]
    exact hlater

/-- The place before which a text lies. -/
theorem at?_append {source : String} {before after : List Char}
    (h : source.toList = before ++ after) : at? source (bytes before) = some (start.after before) := by
  have hsearch := search_append start before after
  rw [show start.offset = 0 from rfl, Nat.zero_add] at hsearch
  rw [at?, h]
  exact hsearch

end Location

end TemplateTree
