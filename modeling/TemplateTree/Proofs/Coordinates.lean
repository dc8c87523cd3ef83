/-
Lines and columns are coordinates.

A place has two descriptions, its offset, and its line with its column.  Each can be had from the
other.  `offsetPast?` goes from the second to the first: it skips whole lines and then characters of
one line.  Any text is whole lines with a piece of a line behind them, in one way only, and the line
and the column of the place behind a text count just these two parts.

The coordinates are also in the order of the offsets, since going forward by one character leads to
the next column or to a later line.  Offsets that are not between two characters have no place, and
those beyond the end have the place of the end.
-/
import TemplateTree.Proofs.Slices

namespace TemplateTree

/-! ### Offsets between characters -/

/-- A text cannot be cut inside a character, and can be cut everywhere else. -/
theorem splitAt?_eq_none_iff {text : List Char} {offset : Nat} (h : offset ≤ bytes text) :
    splitAt? text offset = none ↔
      ∃ before c after, text = before ++ c :: after ∧ bytes before < offset ∧
        offset < bytes before + c.utf8Size := by
  fun_induction splitAt? text offset with
  | case1 text => simp
  | case2 offset => cases h
  | case3 c rest offset hfits ih =>
    rw [bytes_cons] at h
    rw [Option.map_eq_none_iff, ih (by omega)]
    constructor
    · rintro ⟨before, d, after, rfl, hlow, hhigh⟩
      exact ⟨c :: before, d, after, rfl, by rw [bytes_cons]; omega, by rw [bytes_cons]; omega⟩
    · rintro ⟨before, d, after, htext, hlow, hhigh⟩
      cases before with
      | nil =>
        obtain ⟨rfl, -⟩ := List.cons.inj htext
        rw [bytes_nil] at hhigh
        omega
      | cons e before =>
        obtain ⟨rfl, hrest⟩ := List.cons.inj htext
        rw [bytes_cons] at hlow hhigh
        exact ⟨before, d, after, hrest, by omega, by omega⟩
  | case4 c rest offset hfits =>
    simp only [true_iff]
    exact ⟨[], c, rest, rfl, by rw [bytes_nil]; omega, by rw [bytes_nil]; omega⟩

theorem bytes_toList (source : String) : bytes source.toList = source.utf8ByteSize := by
  rw [bytes, String.ofList_toList]

/-- An offset is between characters if it is the size of what is before it. -/
theorem isValid_iff {source : String} {offset : Nat} :
    String.Pos.Raw.IsValid source ⟨offset⟩ ↔
      ∃ before after, source.toList = before ++ after ∧ bytes before = offset := by
  rw [String.Pos.Raw.isValid_iff_exists_append]
  constructor
  · rintro ⟨before, after, rfl, hsize⟩
    refine ⟨before.toList, after.toList, by simp, ?_⟩
    rw [bytes, String.ofList_toList]
    exact (congrArg String.Pos.Raw.byteIdx hsize).symm
  · rintro ⟨before, after, hsource, hsize⟩
    refine ⟨String.ofList before, String.ofList after, ?_, ?_⟩
    · rw [← String.ofList_append, ← hsource, String.ofList_toList]
    · rw [← hsize]
      rfl

/-! ### Skipping lines and columns -/

/-- A text up to the end of a number of lines, and what follows. -/
def passLines? : Nat → List Char → Option (List Char × List Char)
  | 0, text => some ([], text)
  | _ + 1, [] => none
  | lines + 1, c :: rest =>
    (passLines? (if c = '\n' then lines else lines + 1) rest).map
      fun (passed, left) => (c :: passed, left)

/-- A number of characters none of which ends a line, and what follows. -/
def passColumns? : Nat → List Char → Option (List Char × List Char)
  | 0, text => some ([], text)
  | _ + 1, [] => none
  | columns + 1, c :: rest =>
    if c = '\n' then none
    else (passColumns? columns rest).map fun (passed, left) => (c :: passed, left)

/-- Some whole lines, perhaps none: where they end, a line ends. -/
def WholeLines (text : List Char) : Prop :=
  ∀ c ∈ text.getLast?, c = '\n'

theorem wholeLines_nil : WholeLines [] := by
  simp [WholeLines]

theorem wholeLines_cons {c : Char} {rest : List Char} :
    WholeLines (c :: rest) ↔ (rest = [] → c = '\n') ∧ WholeLines rest := by
  cases rest with
  | nil => simp [WholeLines]
  | cons d rest => simp [WholeLines]

theorem wholeLines_append_singleton {text : List Char} {c : Char} :
    WholeLines (text ++ [c]) ↔ c = '\n' := by
  simp [WholeLines]

/-- Whole lines are as many as the line feeds in them. -/
theorem WholeLines.eq_nil {text : List Char} (h : WholeLines text) (hcount : text.count '\n' = 0) :
    text = [] := by
  rcases List.eq_nil_or_concat' text with hnil | ⟨earlier, last, rfl⟩
  · exact hnil
  · rw [wholeLines_append_singleton.mp h] at hcount
    simp at hcount

theorem passLines?_eq_some_iff {lines : Nat} {text passed left : List Char} :
    passLines? lines text = some (passed, left) ↔
      text = passed ++ left ∧ WholeLines passed ∧ passed.count '\n' = lines := by
  fun_induction passLines? lines text generalizing passed with
  | case1 text =>
    constructor
    · rintro ⟨⟩
      exact ⟨rfl, wholeLines_nil, rfl⟩
    · rintro ⟨rfl, hwhole, hcount⟩
      rw [hwhole.eq_nil hcount]
      rfl
  | case2 lines =>
    constructor
    · rintro ⟨⟩
    · rintro ⟨htext, -, hcount⟩
      rw [(List.append_eq_nil_iff.mp htext.symm).1] at hcount
      cases hcount
  | case3 lines c rest ih =>
    rw [Option.map_eq_some_iff]
    constructor
    · rintro ⟨⟨first, second⟩, hpass, heq⟩
      cases heq
      obtain ⟨rfl, hwhole, hcount⟩ := ih.mp hpass
      by_cases hc : c = '\n'
      · rw [if_pos hc] at hcount
        exact ⟨rfl, wholeLines_cons.mpr ⟨fun _ => hc, hwhole⟩, by simp [hc, hcount]⟩
      · rw [if_neg hc] at hcount
        have hne : first ≠ [] := by
          rintro rfl
          cases hcount
        exact ⟨rfl, wholeLines_cons.mpr ⟨fun hnil => absurd hnil hne, hwhole⟩,
          by simp [hc, hcount]⟩
    · rintro ⟨htext, hwhole, hcount⟩
      cases passed with
      | nil => cases hcount
      | cons d first =>
        obtain ⟨rfl, hrest⟩ := List.cons.inj htext
        refine ⟨(first, left), ih.mpr ⟨hrest, (wholeLines_cons.mp hwhole).2, ?_⟩, rfl⟩
        by_cases hc : c = '\n'
        · rw [if_pos hc]
          simpa [hc] using hcount
        · rw [if_neg hc]
          simpa [hc] using hcount

theorem passColumns?_eq_some_iff {columns : Nat} {text passed left : List Char} :
    passColumns? columns text = some (passed, left) ↔
      text = passed ++ left ∧ '\n' ∉ passed ∧ passed.length = columns := by
  fun_induction passColumns? columns text generalizing passed with
  | case1 text =>
    constructor
    · rintro ⟨⟩
      exact ⟨rfl, List.not_mem_nil, rfl⟩
    · rintro ⟨rfl, -, hlength⟩
      rw [List.length_eq_zero_iff.mp hlength]
      rfl
  | case2 columns =>
    constructor
    · rintro ⟨⟩
    · rintro ⟨htext, -, hlength⟩
      rw [(List.append_eq_nil_iff.mp htext.symm).1] at hlength
      cases hlength
  | case3 columns rest =>
    constructor
    · rintro ⟨⟩
    · rintro ⟨htext, hline, hlength⟩
      cases passed with
      | nil => cases hlength
      | cons d first =>
        obtain ⟨rfl, -⟩ := List.cons.inj htext
        exact absurd List.mem_cons_self hline
  | case4 columns c rest hc ih =>
    rw [Option.map_eq_some_iff]
    constructor
    · rintro ⟨⟨first, second⟩, hpass, heq⟩
      cases heq
      obtain ⟨rfl, hline, hlength⟩ := ih.mp hpass
      exact ⟨rfl, by simp [hline, Ne.symm hc], by simp [hlength]⟩
    · rintro ⟨htext, hline, hlength⟩
      cases passed with
      | nil => cases hlength
      | cons d first =>
        obtain ⟨rfl, hrest⟩ := List.cons.inj htext
        exact ⟨(first, left), ih.mpr ⟨hrest, fun hmem => hline (List.mem_cons_of_mem _ hmem),
          Nat.succ.inj hlength⟩, rfl⟩

/-- **Any text is whole lines, and a piece of a line behind them.** -/
theorem exists_wholeLines (text : List Char) :
    ∃ lines line, text = lines ++ line ∧ WholeLines lines ∧ '\n' ∉ line := by
  induction text using List.reverseRecOn with
  | nil => exact ⟨[], [], rfl, wholeLines_nil, by simp⟩
  | append_singleton text c ih =>
    obtain ⟨lines, line, rfl, hwhole, hline⟩ := ih
    by_cases hc : c = '\n'
    · exact ⟨lines ++ line ++ [c], [], by simp, wholeLines_append_singleton.mpr hc, by simp⟩
    · exact ⟨lines, line ++ [c], by simp, hwhole, by simp [hline, Ne.symm hc]⟩

namespace Location

/-! ### The place behind a text -/

/-- Within a line, only the column changes. -/
theorem after_line (here : Location) {line : List Char} (h : '\n' ∉ line) :
    here.after line = ⟨here.line, here.column + line.length, here.offset + bytes line⟩ := by
  induction line generalizing here with
  | nil => rfl
  | cons c rest ih =>
    have hc : c ≠ '\n' := fun heq => h (heq ▸ List.mem_cons_self)
    have hrest : '\n' ∉ rest := fun hmem => h (List.mem_cons_of_mem _ hmem)
    rw [after_cons, ih _ hrest, advance, if_neg hc, bytes_cons, List.length_cons]
    simp only [mk.injEq, true_and]
    omega

/-- Behind whole lines a line begins. -/
theorem after_wholeLines {lines : List Char} (h : WholeLines lines) :
    start.after lines = ⟨lines.count '\n' + 1, 1, bytes lines⟩ := by
  rcases List.eq_nil_or_concat' lines with rfl | ⟨earlier, last, rfl⟩
  · rfl
  · obtain ⟨line, -, hafter⟩ := exists_lastLine earlier
    rw [wholeLines_append_singleton.mp h, after_append, hafter]
    simp [advance]

/-- **A place counts the lines before it, and the characters before it in its line.** -/
theorem after_lines_line {lines line : List Char} (h : WholeLines lines) (hline : '\n' ∉ line) :
    start.after (lines ++ line) =
      ⟨lines.count '\n' + 1, line.length + 1, bytes (lines ++ line)⟩ := by
  rw [after_append, after_wholeLines h, after_line _ hline, bytes_append, Nat.add_comm 1]

/-! ### The place at an offset -/

theorem search_of_lt {offset : Nat} {here : Location} (h : offset < here.offset)
    (text : List Char) : search offset here text = none := by
  cases text with
  | nil => rw [search, if_neg (Nat.not_le.mpr h)]
  | cons c rest => rw [search, if_neg (Nat.not_lt.mpr (Nat.le_of_lt h)), if_neg (Nat.ne_of_gt h)]

/-- A search finds the place behind the text that is cut off, if it can be. -/
theorem search_eq_splitAt? {offset : Nat} (text : List Char) {here : Location}
    (h : here.offset ≤ offset) :
    search offset here text =
      (splitAt? text (min (offset - here.offset) (bytes text))).map
        fun cut => here.after cut.1 := by
  induction text generalizing here with
  | nil => simp [search, h, splitAt?]
  | cons c rest ih =>
    have hsize := c.utf8Size_pos
    rcases Nat.eq_or_lt_of_le h with heq | hlt
    · simp [search, heq, splitAt?]
    · rw [search, if_pos hlt, bytes_cons]
      have hstep := offset_advance here c
      obtain ⟨n, hn⟩ : ∃ n, min (offset - here.offset) (c.utf8Size + bytes rest) = n + 1 :=
        ⟨min (offset - here.offset) (c.utf8Size + bytes rest) - 1, by omega⟩
      rw [hn, splitAt?]
      by_cases hfits : c.utf8Size ≤ n + 1
      · have hleft : n + 1 - c.utf8Size = min (offset - (here.advance c).offset) (bytes rest) := by
          omega
        rw [if_pos hfits, ih (by omega), hleft, Option.map_map]
        rfl
      · rw [if_neg hfits, search_of_lt (by omega)]
        rfl

/-- **The place at an offset is the place behind the text up to it**, the end standing for all that
is beyond. -/
theorem at?_eq_splitAt? (source : String) (offset : Nat) :
    at? source offset =
      (splitAt? source.toList (min offset (bytes source.toList))).map
        fun cut => start.after cut.1 :=
  search_eq_splitAt? source.toList (Nat.zero_le offset)

/-- **Counting lines gives the place at any offset**, or nothing where there is none. -/
theorem byLines?_eq_at? (source : String) (offset : Nat) :
    byLines? source.toList offset = at? source offset := by
  rw [at?_eq_splitAt?]
  cases hsplit : splitAt? source.toList (min offset (bytes source.toList)) with
  | none => simp [byLines?, upTo?, hsplit]
  | some cut =>
    obtain ⟨line, hline, hafter⟩ := exists_lastLine cut.1
    have hbytes := (splitAt?_eq_some_iff.mp hsplit).2
    simp [byLines?, upTo?, hsplit, hline, hafter, hbytes]

/-- At an offset that is not beyond the end there is a place if some text ends there. -/
theorem at?_eq_some_iff {source : String} {offset : Nat} {here : Location}
    (h : offset ≤ source.utf8ByteSize) :
    at? source offset = some here ↔
      ∃ before after, source.toList = before ++ after ∧ bytes before = offset ∧
        start.after before = here := by
  rw [at?_eq_splitAt?, bytes_toList, Nat.min_eq_left h, Option.map_eq_some_iff]
  constructor
  · rintro ⟨⟨before, after⟩, hsplit, hhere⟩
    obtain ⟨hsource, hbytes⟩ := splitAt?_eq_some_iff.mp hsplit
    exact ⟨before, after, hsource, hbytes, hhere⟩
  · rintro ⟨before, after, hsource, hbytes, hhere⟩
    exact ⟨(before, after), splitAt?_eq_some_iff.mpr ⟨hsource, hbytes⟩, hhere⟩

/-! ### Order -/

/-- One place is before another: in an earlier line, or in the same line in an earlier column. -/
def Before (first second : Location) : Prop :=
  toLex (first.line, first.column) < toLex (second.line, second.column)

theorem before_advance (here : Location) (c : Char) : here.Before (here.advance c) := by
  unfold Before advance
  rw [Prod.Lex.toLex_lt_toLex]
  by_cases hc : c = '\n'
  · rw [if_pos hc]
    exact .inl (Nat.lt_succ_self _)
  · rw [if_neg hc]
    exact .inr ⟨rfl, Nat.lt_succ_self _⟩

/-- **Going forward leads to later places.** -/
theorem before_after (here : Location) {text : List Char} (h : text ≠ []) :
    here.Before (here.after text) := by
  induction text using List.reverseRecOn with
  | nil => exact absurd rfl h
  | append_singleton text c ih =>
    rw [after_append, after_cons, after_nil]
    by_cases htext : text = []
    · subst htext
      exact before_advance here c
    · exact lt_trans (ih htext) (before_advance _ c)

/-! ### Coordinates -/

/-- The offset past a number of whole lines, and past a number of characters in the line behind
them. -/
def offsetPast? (source : List Char) (lines columns : Nat) : Option Nat := do
  let (before, rest) ← passLines? lines source
  let (line, _) ← passColumns? columns rest
  some (bytes before + bytes line)

theorem offsetPast?_eq_some_iff {source : List Char} {lines columns offset : Nat} :
    offsetPast? source lines columns = some offset ↔
      ∃ before line after, source = before ++ (line ++ after) ∧
        (WholeLines before ∧ before.count '\n' = lines) ∧ ('\n' ∉ line ∧ line.length = columns) ∧
        bytes before + bytes line = offset := by
  simp only [offsetPast?, Option.bind_eq_bind, Option.bind_eq_some_iff, Option.some.injEq,
    Prod.exists, passLines?_eq_some_iff, passColumns?_eq_some_iff]
  constructor
  · rintro ⟨before, rest, ⟨rfl, hlines⟩, line, after, ⟨rfl, hcolumns⟩, hoffset⟩
    exact ⟨before, line, after, rfl, hlines, hcolumns, hoffset⟩
  · rintro ⟨before, line, after, rfl, hlines, hcolumns, hoffset⟩
    exact ⟨before, line ++ after, ⟨rfl, hlines⟩, line, after, ⟨rfl, hcolumns⟩, hoffset⟩

/-- What lines and columns are good for in a source. -/
structure Coordinates (source : String) : Prop where
  /-- Between characters there are places, and they are in the order of the offsets. -/
  ordered : ∀ {first second : Nat}, first < second → second ≤ source.utf8ByteSize →
    String.Pos.Raw.IsValid source ⟨first⟩ → String.Pos.Raw.IsValid source ⟨second⟩ →
    ∃ here there, at? source first = some here ∧ at? source second = some there ∧
      here.Before there
  /-- Other offsets have other coordinates. -/
  distinct : ∀ {first second : Nat} {here there : Location}, first ≤ source.utf8ByteSize →
    second ≤ source.utf8ByteSize → at? source first = some here →
    at? source second = some there → here.line = there.line → here.column = there.column →
    first = second
  /-- An offset is that of its coordinates. -/
  recovered : ∀ {offset : Nat} {here : Location}, offset ≤ source.utf8ByteSize →
    at? source offset = some here →
    offsetPast? source.toList (here.line - 1) (here.column - 1) = some offset
  /-- Coordinates are those of their offset. -/
  located : ∀ {lines columns offset : Nat},
    offsetPast? source.toList lines columns = some offset →
    at? source offset = some ⟨lines + 1, columns + 1, offset⟩
  /-- Beyond the end is the end. -/
  beyond : ∀ {offset : Nat}, source.utf8ByteSize ≤ offset →
    at? source offset = some (start.after source.toList)
  /-- There is no place inside a character, and nowhere else is there none. -/
  inside : ∀ offset : Nat, at? source offset = none ↔
    ∃ before c after, source.toList = before ++ c :: after ∧
      bytes before < min offset source.utf8ByteSize ∧
      min offset source.utf8ByteSize < bytes before + c.utf8Size
  /-- Cutting off the text before an offset, and then its last line, comes to the same. -/
  byLines : ∀ offset : Nat, byLines? source.toList offset = at? source offset

variable {source : String}

theorem exists_before {first second : Nat} (hlt : first < second)
    (hle : second ≤ source.utf8ByteSize) (hfirst : String.Pos.Raw.IsValid source ⟨first⟩)
    (hsecond : String.Pos.Raw.IsValid source ⟨second⟩) :
    ∃ here there, at? source first = some here ∧ at? source second = some there ∧
      here.Before there := by
  obtain ⟨before, after, hsource, rfl⟩ := isValid_iff.mp hfirst
  obtain ⟨before', after', hsource', rfl⟩ := isValid_iff.mp hsecond
  refine ⟨_, _, at?_append hsource, at?_append hsource', ?_⟩
  -- of two beginnings of the source, the shorter one begins the longer one
  rcases List.append_eq_append_iff.mp (hsource.symm.trans hsource') with
    ⟨part, rfl, -⟩ | ⟨part, rfl, -⟩
  · rw [after_append]
    refine before_after _ ?_
    rintro rfl
    simp at hlt
  · rw [bytes_append] at hlt
    omega

theorem offsetPast?_of_at? {offset : Nat} {here : Location} (hle : offset ≤ source.utf8ByteSize)
    (h : at? source offset = some here) :
    offsetPast? source.toList (here.line - 1) (here.column - 1) = some offset := by
  obtain ⟨before, after, hsource, rfl, rfl⟩ := (at?_eq_some_iff hle).mp h
  obtain ⟨lines, line, rfl, hlines, hline⟩ := exists_wholeLines before
  rw [after_lines_line hlines hline]
  refine offsetPast?_eq_some_iff.mpr ⟨lines, line, after, ?_, ⟨hlines, rfl⟩, ⟨hline, rfl⟩, ?_⟩
  · rw [hsource, List.append_assoc]
  · rw [bytes_append]

theorem at?_of_offsetPast? {lines columns offset : Nat}
    (h : offsetPast? source.toList lines columns = some offset) :
    at? source offset = some ⟨lines + 1, columns + 1, offset⟩ := by
  obtain ⟨before, line, after, hsource, ⟨hbefore, rfl⟩, ⟨hline, rfl⟩, rfl⟩ :=
    offsetPast?_eq_some_iff.mp h
  rw [← List.append_assoc] at hsource
  rw [← bytes_append, at?_append hsource, after_lines_line hbefore hline]

/-- **Lines and columns are faithful coordinates of any source.** -/
theorem coordinates (source : String) : Coordinates source where
  ordered := exists_before
  distinct hfirst hsecond hhere hthere hline hcolumn := by
    have hback := offsetPast?_of_at? hfirst hhere
    rw [hline, hcolumn, offsetPast?_of_at? hsecond hthere] at hback
    exact (Option.some.inj hback).symm
  recovered := offsetPast?_of_at?
  located := at?_of_offsetPast?
  beyond h := by
    rw [at?_eq_splitAt?, bytes_toList, Nat.min_eq_right h, ← bytes_toList,
      splitAt?_eq_some_iff.mpr ⟨(List.append_nil _).symm, rfl⟩]
    rfl
  inside offset := by
    rw [at?_eq_splitAt?, bytes_toList, Option.map_eq_none_iff,
      splitAt?_eq_none_iff (by rw [bytes_toList]; exact Nat.min_le_right _ _)]
  byLines := byLines?_eq_at? source

/-- Behind a line feed that follows a character of two bytes, at an end, and inside a character. -/
example : at? "cé\né" 4 = some ⟨2, 1, 4⟩ ∧ offsetPast? "cé\né".toList 1 0 = some 4 ∧
    at? "cé\né" 9 = some ⟨2, 2, 6⟩ ∧ at? "cé\né" 5 = none := by
  decide

end Location

end TemplateTree
