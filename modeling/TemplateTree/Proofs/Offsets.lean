/-
A window read by offsets.

The library cuts a source as a list of characters, from which nothing can be cut that is not there.
Here a window is read with offsets into the source: `windowAt?` finds its end by adding up the sizes
of delimiters and the offsets of what was found.  Any of its slices might be out of bounds or inside
a character, and then there is no result.

There always is one, and it is what the library reads.  What that is can be said without a search:
the window ends past the first closer that its beginning admits, `FirstCloser`.  A long comment
admits two, and of these the search takes the one that ends first, which is the one that begins
first.
-/
import TemplateTree.Proofs.Grammar
import TemplateTree.Proofs.Slices

namespace TemplateTree

/-! ### Searches side by side -/

/-- A narrower search finds the same place if that will do for it. -/
theorem splitWhere_narrow {found narrow : List Char → Bool}
    (himp : ∀ text, narrow text = true → found text = true) {text before after : List Char}
    (h : splitWhere found text = some (before, after)) (hafter : narrow after = true) :
    splitWhere narrow text = some (before, after) := by
  have htext := splitWhere_append h
  cases hnarrow : splitWhere narrow text with
  | none =>
    have hnot := splitWhere_eq_none_iff.mp hnarrow after ⟨before, htext⟩
    rw [hafter] at hnot
    cases hnot
  | some place =>
    obtain ⟨before', after'⟩ := place
    have htext' := splitWhere_append hnarrow
    have hle : before <+: before' :=
      splitWhere_first h htext'.symm (himp _ (splitWhere_found hnarrow))
    have hge : before' <+: before := splitWhere_first hnarrow htext.symm hafter
    obtain rfl := hle.eq_of_length_le hge.length_le
    rw [List.append_cancel_left (htext.trans htext'.symm)]

theorem bytes_le_of_prefix {first second : List Char} (h : first <+: second) :
    bytes first ≤ bytes second := by
  obtain ⟨rest, rfl⟩ := h
  simp

/-! ### Closers -/

namespace Window

/-- What a long comment begins with. -/
def mark (long : Bool) : List Char :=
  if long then "!--".toList else []

/-- The texts that close a window, by what it begins with. -/
def closers (triple long : Bool) : List String :=
  if triple then [closeTriple]
  else if long then ["--" ++ closeBraces, "--~" ++ closeBraces]
  else [closeBraces]

/-- The first place in a text at which one of the closers stands, and what follows it there. -/
structure FirstCloser (closers : List String) (text between : List Char) (closer : String)
    (after : List Char) : Prop where
  admissible : closer ∈ closers
  split : text = between ++ (closer.toList ++ after)
  first : ∀ closer' ∈ closers, ∀ between' after', text = between' ++ (closer'.toList ++ after') →
    bytes between ≤ bytes between'

/-- No closer stands in a text. -/
def Unclosed (closers : List String) (text : List Char) : Prop :=
  ∀ closer ∈ closers, ∀ between after, text ≠ between ++ (closer.toList ++ after)

/-- Does one of the closers stand at the beginning of a text? -/
def closesAt (closers : List String) (text : List Char) : Bool :=
  closers.any (startsWith · text)

theorem startsWith_append_self (sought : String) (after : List Char) :
    startsWith sought (sought.toList ++ after) = true :=
  List.isPrefixOf_iff_prefix.mpr (List.prefix_append _ _)

theorem closesAt_append {closers : List String} {closer : String} (h : closer ∈ closers)
    (after : List Char) : closesAt closers (closer.toList ++ after) = true :=
  List.any_eq_true.mpr ⟨closer, h, startsWith_append_self closer after⟩

theorem unclosed_of_splitWhere {closers : List String} {text : List Char}
    (h : splitWhere (closesAt closers) text = none) : Unclosed closers text := by
  rintro closer hmem between after rfl
  have hnot := splitWhere_eq_none_iff.mp h _ (List.suffix_append between _)
  rw [closesAt_append hmem] at hnot
  cases hnot

theorem firstCloser_of_splitWhere {closers : List String} {text between found : List Char}
    (h : splitWhere (closesAt closers) text = some (between, found)) {closer : String}
    (hmem : closer ∈ closers) (hstarts : startsWith closer found = true) :
    FirstCloser closers text between closer (found.drop closer.length) where
  admissible := hmem
  split := by rw [drop_of_startsWith hstarts, splitWhere_append h]
  first closer' hmem' between' after' htext :=
    bytes_le_of_prefix (splitWhere_first h htext (closesAt_append hmem' after'))

theorem closesAt_closing (triple : Bool) :
    closesAt (closers triple false) = startsWith (closing triple) := by
  funext text
  cases triple <;> simp [closesAt, closers, closing]

theorem closesAt_comment :
    closesAt (closers false true) = fun text => (commentEnd text).isSome := by
  funext text
  simp only [closesAt, closers, Bool.false_eq_true, if_false, if_true, List.any_cons, List.any_nil,
    Bool.or_false, commentEnd]
  cases startsWith ("--" ++ closeBraces) text <;> cases startsWith ("--~" ++ closeBraces) text <;>
    rfl

/-- A window that is no long comment is read up to the first closer. -/
theorem readPlain_first (triple : Bool) (text : List Char) :
    readPlain triple text = none ∧ Unclosed (closers triple false) text ∨
      ∃ inner after, readPlain triple text = some (inner, after) ∧
        FirstCloser (closers triple false) text inner (closing triple) after := by
  rw [readPlain, ← closesAt_closing]
  cases hsplit : splitWhere (closesAt (closers triple false)) text with
  | none => exact .inl ⟨rfl, unclosed_of_splitWhere hsplit⟩
  | some found =>
    have hmem : closing triple ∈ closers triple false := by
      cases triple <;> simp [closers, closing]
    have hstarts := splitWhere_found hsplit
    rw [closesAt_closing] at hstarts
    exact .inr ⟨found.1, _, rfl, firstCloser_of_splitWhere hsplit hmem hstarts⟩

/-- A long comment is read up to the first closer, of which the dashes are a part of it. -/
theorem readComment_first (text : List Char) :
    readComment text = none ∧ Unclosed (closers false true) text ∨
      ∃ between dashes after,
        readComment text = some (mark true ++ between ++ dashes.toList, after) ∧
        FirstCloser (closers false true) text between (dashes ++ closeBraces) after := by
  rw [readComment, ← closesAt_comment]
  cases hsplit : splitWhere (closesAt (closers false true)) text with
  | none => exact .inl ⟨rfl, unclosed_of_splitWhere hsplit⟩
  | some found =>
    have hends := splitWhere_found hsplit
    rw [closesAt_comment] at hends
    obtain ⟨dashes, hdashes⟩ := Option.isSome_iff_exists.mp hends
    have hmem : dashes ++ closeBraces ∈ closers false true := by
      rcases eq_of_commentEnd hdashes with rfl | rfl <;> simp [closers]
    have hstarts : startsWith (dashes ++ closeBraces) found.2 = true := by
      rw [← commentEnd_append hdashes]
      simp [startsWith, closing, String.toList_append, List.append_assoc]
    have hfirst := firstCloser_of_splitWhere hsplit hmem hstarts
    rw [String.length_append] at hfirst
    exact .inr ⟨found.1, dashes, _, by simp [hdashes, mark], hfirst⟩

/-- **A window is read up to the first closer that its beginning admits**, from the place after its
opening delimiter and tilde. -/
theorem readInner_first (triple trimLeft : Bool) (text : List Char) :
    ∃ long rest, text = mark long ++ rest ∧ long = (!triple && startsWith "!--" text) ∧
      (readInner triple trimLeft text = none ∧ Unclosed (closers triple long) rest ∨
        ∃ between closer after inner,
          readInner triple trimLeft text = some (ofInner triple trimLeft inner, after) ∧
          FirstCloser (closers triple long) rest between closer after ∧
          inner ++ (closing triple).toList = mark long ++ (between ++ closer.toList)) := by
  unfold readInner
  cases hlong : (!triple && startsWith "!--" text) with
  | false =>
    refine ⟨false, text, rfl, rfl, ?_⟩
    rw [if_neg Bool.false_ne_true]
    rcases readPlain_first triple text with ⟨hread, hunclosed⟩ | ⟨inner, after, hread, hfirst⟩
    · exact .inl ⟨by rw [hread]; rfl, hunclosed⟩
    · exact .inr ⟨inner, closing triple, after, inner, by rw [hread]; rfl, hfirst, rfl⟩
  | true =>
    obtain ⟨rfl, hmark⟩ : triple = false ∧ startsWith "!--" text = true := by
      simpa using hlong
    refine ⟨true, text.drop 3, (drop_of_startsWith hmark).symm, rfl, ?_⟩
    rw [if_pos rfl]
    rcases readComment_first (text.drop 3) with
      ⟨hread, hunclosed⟩ | ⟨between, dashes, after, hread, hfirst⟩
    · exact .inl ⟨by rw [hread]; rfl, hunclosed⟩
    · exact .inr ⟨between, dashes ++ closeBraces, after, mark true ++ between ++ dashes.toList,
        by rw [hread]; rfl, hfirst, by simp [closing]⟩

end Window

/-! ### Windows -/

/-- A window with the place where it opens and the offset at which it ends. -/
structure PlacedWindow where
  window : Window
  location : Location
  /-- Just past the closing delimiter. -/
  stop : Nat

/-- The offset of the closing delimiter of a window that is read from `start` on; for a long
comment, of the one that comes first after either kind of dashes.  Nothing if a slice fails. -/
def closerAt? (source : List Char) (triple : Bool) (start : Nat) : Option (Option Nat) := do
  let text ← from? source start
  if !triple && startsWith "!--" text then
    let start := start + 3
    let text ← from? source start
    let plain := (find? ("--" ++ closeBraces) text).map (· + 2)
    let trimmed := (find? ("--~" ++ closeBraces) text).map (· + 3)
    some ((plain.toList ++ trimmed.toList).min?.map (start + ·))
  else
    some ((find? (Window.closing triple) text).map (start + ·))

/-- Reads the window that opens at an offset.  Nothing if a slice fails. -/
def windowAt? (source : List Char) (opener : Nat) :
    Option (Except DirectiveError PlacedWindow) := do
  let location ← Location.byLines? source opener
  let triple := startsWith openTriple (← from? source opener)
  let start := opener + if triple then 3 else 2
  let trimLeft := startsWith "~" (← from? source start)
  let start := if trimLeft then start + 1 else start
  match ← closerAt? source triple start with
  | none => some (.error ⟨.unclosedMustache, location⟩)
  | some close =>
    let before ← upTo? source close
    let trimRight := decide (start < close) && before.getLast? == some '~'
    let stop := if trimRight then close - 1 else close
    let body ← slice? source start stop
    some (.ok ⟨⟨triple, trimLeft, body, trimRight⟩, location, close + (Window.closing triple).length⟩)

section

variable {found : List Char → Bool} {sought : String} {text before after : List Char}

theorem find?_eq_none (himp : ∀ text, startsWith sought text = true → found text = true)
    (h : splitWhere found text = none) : find? sought text = none := by
  rw [find?, Option.map_eq_none_iff, splitWhere_eq_none_iff]
  intro after hafter
  have hnot := splitWhere_eq_none_iff.mp h after hafter
  exact Bool.eq_false_iff.mpr fun hstarts => Bool.eq_false_iff.mp hnot (himp after hstarts)

theorem find?_eq_some (himp : ∀ text, startsWith sought text = true → found text = true)
    (h : splitWhere found text = some (before, after)) (hafter : startsWith sought after = true) :
    find? sought text = some (bytes before) := by
  rw [find?, splitWhere_narrow himp h hafter]
  rfl

/-- A narrower search does not end before a wider one, and not where the wider one ends if that
will not do for it. -/
theorem le_find? (himp : ∀ text, startsWith sought text = true → found text = true)
    (h : splitWhere found text = some (before, after)) {offset : Nat}
    (hfind : find? sought text = some offset) :
    bytes before ≤ offset ∧ (startsWith sought after = false → bytes before ≠ offset) := by
  obtain ⟨⟨before', after'⟩, hsplit, rfl⟩ := Option.map_eq_some_iff.mp hfind
  have htext := splitWhere_append hsplit
  have hfound := splitWhere_found hsplit
  obtain ⟨rest, rfl⟩ := splitWhere_first h htext.symm (himp _ hfound)
  refine ⟨by simp, fun hnot heq => ?_⟩
  have hrest : rest = [] := by
    simp only [bytes_append] at heq
    exact bytes_eq_zero_iff.mp (by omega)
  rw [hrest, List.append_nil] at htext
  rw [List.append_cancel_left (htext.trans (splitWhere_append h).symm), hnot] at hfound
  cases hfound

end

/-- **Of the two kinds of dashes that may end a long comment, those that come first end first**, and
so the smaller of the two offsets is the end of the comment. -/
theorem min?_commentEnd (text : List Char) :
    (((find? ("--" ++ closeBraces) text).map (· + 2)).toList ++
        ((find? ("--~" ++ closeBraces) text).map (· + 3)).toList).min?.map (3 + ·) =
      (Window.readComment text).map fun (inner, _) => bytes inner := by
  have hplain : ∀ text, startsWith ("--" ++ closeBraces) text = true →
      (Window.commentEnd text).isSome = true := by
    intro text h
    rw [Window.commentEnd, if_pos h]
    rfl
  have htrimmed : ∀ text, startsWith ("--~" ++ closeBraces) text = true →
      (Window.commentEnd text).isSome = true := by
    intro text h
    unfold Window.commentEnd
    split <;> rfl
  have hsize : ∀ inner : List Char, bytes ("!--".toList ++ inner ++ "--".toList) = bytes inner + 5 ∧
      bytes ("!--".toList ++ inner ++ "--~".toList) = bytes inner + 6 := by
    intro inner
    have hmark : bytes "!--".toList = 3 := rfl
    have hdashes : bytes "--".toList = 2 ∧ bytes "--~".toList = 3 := ⟨rfl, rfl⟩
    simp only [bytes_append, hmark, hdashes]
    omega
  unfold Window.readComment
  cases hsplit : splitWhere (fun after => (Window.commentEnd after).isSome) text with
  | none => simp [find?_eq_none hplain hsplit, find?_eq_none htrimmed hsplit]
  | some found =>
    obtain ⟨inner, after⟩ := found
    cases hends : startsWith ("--" ++ closeBraces) after with
    | true =>
      have hdashes : Window.commentEnd after = some "--" := by rw [Window.commentEnd, if_pos hends]
      simp only [find?_eq_some hplain hsplit hends, hdashes, Option.map_some, hsize]
      -- dashes of the other kind begin no earlier, and end later by their tilde
      cases hother : find? ("--~" ++ closeBraces) text with
      | none => simp; omega
      | some offset =>
        have hle := (le_find? htrimmed hsplit hother).1
        simp
        omega
    | false =>
      have hnot : ¬ startsWith ("--" ++ closeBraces) after = true := by simp [hends]
      have hfound := splitWhere_found hsplit
      rw [Window.commentEnd, if_neg hnot] at hfound
      have hstarts : startsWith ("--~" ++ closeBraces) after = true := by
        by_contra hneither
        rw [if_neg hneither] at hfound
        cases hfound
      have hdashes : Window.commentEnd after = some "--~" := by
        rw [Window.commentEnd, if_neg hnot, if_pos hstarts]
      simp only [find?_eq_some htrimmed hsplit hstarts, hdashes, Option.map_some, hsize]
      -- here they would do without the tilde, but they begin later by a character at least
      cases hother : find? ("--" ++ closeBraces) text with
      | none => simp; omega
      | some offset =>
        obtain ⟨hle, hne⟩ := le_find? hplain hsplit hother
        have hlt : bytes inner < offset := lt_of_le_of_ne hle (hne hends)
        simp
        omega

/-- The text from an offset on, where it is known what lies between. -/
theorem from?_of_bytes {source before after : List Char} {start : Nat}
    (hsource : source = before ++ after) (hstart : start = bytes before) :
    from? source start = some after := by
  rw [hsource, hstart, from?_append]

/-- **The closing delimiter is found where reading finds it.** -/
theorem closerAt?_append (before : List Char) (triple trimLeft : Bool) (text : List Char) :
    closerAt? (before ++ text) triple (bytes before) =
      some ((Window.readInner triple trimLeft text).map fun (w, _) =>
        bytes before + bytes w.inner) := by
  simp only [closerAt?, from?_append, Option.bind_eq_bind, Option.bind_some, Window.readInner]
  split
  · rename_i hlong
    have hmark : startsWith "!--" text = true := by
      simp only [Bool.and_eq_true] at hlong
      exact hlong.2
    have htext := Window.drop_of_startsWith hmark
    have hfrom : from? (before ++ text) (bytes before + 3) = some (text.drop 3) := by
      refine @from?_of_bytes _ (before ++ "!--".toList) _ _ ?_ ?_
      · rw [List.append_assoc]
        exact congrArg (before ++ ·) htext.symm
      · rw [bytes_append]
        rfl
    have hsum : (bytes before + 3 + ·) = (bytes before + ·) ∘ (3 + ·) := by
      funext size
      exact Nat.add_assoc ..
    rw [hfrom, Option.bind_some, hsum, ← Option.map_map, min?_commentEnd, Option.map_map,
      Option.map_map]
    simp [Function.comp_def, Window.inner_ofInner]
  · rw [find?, Window.readPlain, Option.map_map, Option.map_map, Option.map_map]
    simp [Function.comp_def, Window.inner_ofInner]

/-- The tilde before a closing delimiter is seen from the text before it, but for the tilde of the
opening one. -/
theorem endsWith_tilde (before inner : List Char) :
    (decide (bytes before < bytes before + bytes inner) &&
      (before ++ inner).getLast? == some '~') = (inner.getLast? == some '~') := by
  cases inner with
  | nil => simp
  | cons c rest =>
    have hsize := c.utf8Size_pos
    have hlt : bytes before < bytes before + bytes (c :: rest) := by
      rw [bytes_cons]
      omega
    rw [decide_eq_true hlt, Bool.true_and, List.getLast?_append_of_ne_nil _ (List.cons_ne_nil c rest)]

/-- The text between the delimiters, the tilde at its end set apart. -/
theorem slice?_inner (before inner after : List Char) (triple trimLeft : Bool) :
    ((slice? (before ++ (inner ++ after)) (bytes before)
        (if inner.getLast? == some '~' then bytes before + bytes inner - 1
          else bytes before + bytes inner)).map fun body =>
      (⟨triple, trimLeft, body, inner.getLast? == some '~'⟩ : Window)) =
      some (Window.ofInner triple trimLeft inner) := by
  unfold Window.ofInner
  by_cases htilde : inner.getLast? = some '~'
  · obtain ⟨body, rfl⟩ := List.getLast?_eq_some_iff.mp htilde
    have hslice := slice?_append before body ('~' :: after)
    have hsize : bytes before + bytes (body ++ ['~']) - 1 = bytes before + bytes body := by
      have hone : bytes ['~'] = 1 := rfl
      rw [bytes_append, hone]
      omega
    rw [if_pos htilde, htilde, hsize]
    simp [hslice]
  · have hslice := slice?_append before inner after
    simp [htilde, hslice]

theorem Window.openBraces_append_brace (triple : Bool) :
    openBraces.toList ++ brace triple = (opening triple).toList := by
  cases triple <;> rfl

namespace Window.Begins

variable {triple trimLeft : Bool} {text rest : List Char}

/-- The third brace is seen from the opener. -/
theorem startsWith_triple (h : Begins triple trimLeft text rest) :
    startsWith openTriple (openBraces.toList ++ text) = triple := by
  cases triple with
  | true =>
    rw [h.split, ← List.append_assoc, openBraces_append_brace]
    exact startsWith_append_self openTriple _
  | false =>
    have hnot := h.brace rfl
    rw [h.split]
    cases hopened : Window.tilde trimLeft ++ rest with
    | nil => rfl
    | cons c more =>
      rw [hopened] at hnot
      have hne : '\x7b' ≠ c := by
        rintro rfl
        exact hnot rfl
      exact @startsWith_cons_of_ne "\x7b" '\x7b' c rfl hne more

/-- The tilde is seen from the end of the delimiter. -/
theorem startsWith_tilde (h : Begins triple trimLeft text rest) :
    startsWith "~" (Window.tilde trimLeft ++ rest) = trimLeft := by
  cases trimLeft with
  | true => rfl
  | false =>
    have hnot := h.tilde rfl
    cases rest with
    | nil => rfl
    | cons c more =>
      have hne : '~' ≠ c := by
        rintro rfl
        exact hnot rfl
      exact @startsWith_cons_of_ne "~" '~' c rfl hne more

end Window.Begins

/-- **A window that opens at an offset is read without a slice that fails**, and is the window that
the library reads there. -/
theorem windowAt?_append (before text : List Char) :
    windowAt? (before ++ (openBraces.toList ++ text)) (bytes before) = some
      (match Window.read? text with
        | none => .error ⟨.unclosedMustache, Location.start.after before⟩
        | some (w, _) => .ok ⟨w, Location.start.after before, bytes (before ++ w.spelling)⟩) := by
  obtain ⟨triple, trimLeft, rest, hbegins⟩ := Window.exists_begins text
  have hopened : openBraces.toList ++ text =
      (Window.opening triple).toList ++ (Window.tilde trimLeft ++ rest) := by
    rw [hbegins.split, ← List.append_assoc, Window.openBraces_append_brace]
  have hstart : bytes before + (if triple then 3 else 2) =
      bytes (before ++ (Window.opening triple).toList) := by
    rw [bytes_append]
    cases triple <;> rfl
  have hinner : (if trimLeft then bytes (before ++ (Window.opening triple).toList) + 1
      else bytes (before ++ (Window.opening triple).toList)) =
      bytes (before ++ (Window.opening triple).toList ++ Window.tilde trimLeft) := by
    rw [bytes_append _ (Window.tilde trimLeft)]
    cases trimLeft <;> rfl
  have hfrom : from? (before ++ (openBraces.toList ++ text))
      (bytes (before ++ (Window.opening triple).toList)) = some (Window.tilde trimLeft ++ rest) :=
    from?_of_bytes (by rw [hopened, List.append_assoc]) rfl
  have hsource : before ++ (openBraces.toList ++ text) =
      before ++ (Window.opening triple).toList ++ Window.tilde trimLeft ++ rest := by
    rw [hopened]
    simp
  unfold windowAt?
  simp only [Location.byLines?_append, from?_append, hbegins.startsWith_triple, hstart, hfrom,
    hbegins.startsWith_tilde, hinner, Option.bind_eq_bind, Option.bind_some]
  rw [hbegins.read?_eq, hsource, closerAt?_append _ triple trimLeft]
  obtain ⟨-, -, -, -, ⟨hread, -⟩ | ⟨-, -, after, inner, hread, -, -⟩⟩ :=
    Window.readInner_first triple trimLeft rest
  · rw [hread]
    rfl
  · have hrest := (Window.inner_append_of_readInner hread).2
    rw [Window.inner_ofInner] at hrest
    rw [hread, ← hrest]
    simp only [Option.map_some, Option.bind_some, Window.inner_ofInner]
    have hsize : ∀ head, bytes head + bytes inner + (Window.closing triple).length =
        bytes (head ++ inner ++ (Window.closing triple).toList) := by
      intro head
      rw [bytes_append, bytes_append]
      cases triple <;> rfl
    have hspelling : before ++ (Window.ofInner triple trimLeft inner).spelling =
        before ++ (Window.opening triple).toList ++ Window.tilde trimLeft ++ inner ++
          (Window.closing triple).toList := by
      rw [Window.spelling_ofInner]
      simp
    rw [hsize, hspelling]
    generalize before ++ (Window.opening triple).toList ++ Window.tilde trimLeft = head
    have hbefore : upTo? (head ++ (inner ++ ((Window.closing triple).toList ++ after)))
        (bytes head + bytes inner) = some (head ++ inner) := by
      rw [← bytes_append, ← List.append_assoc, upTo?_append]
    obtain ⟨body, hslice, hw⟩ := Option.map_eq_some_iff.mp
      (slice?_inner head inner ((Window.closing triple).toList ++ after) triple trimLeft)
    simp only [hbefore, Option.bind_some, endsWith_tilde, hslice, hw]

/-- A closing delimiter is looked for behind the opening one. -/
theorem start_le_closerAt? {source : List Char} {triple : Bool} {start close : Nat}
    (h : closerAt? source triple start = some (some close)) : start ≤ close := by
  unfold closerAt? at h
  obtain ⟨text, -, h⟩ := Option.bind_eq_some_iff.mp h
  split at h
  · obtain ⟨text, -, h⟩ := Option.bind_eq_some_iff.mp h
    obtain ⟨offset, -, rfl⟩ := Option.map_eq_some_iff.mp (Option.some.inj h)
    omega
  · obtain ⟨offset, -, rfl⟩ := Option.map_eq_some_iff.mp (Option.some.inj h)
    omega

/-- **A window has at least its four braces**, wherever it was read. -/
theorem four_le_windowAt? {source : List Char} {opener : Nat} {placed : PlacedWindow}
    (h : windowAt? source opener = some (.ok placed)) : opener + 4 ≤ placed.stop := by
  unfold windowAt? at h
  obtain ⟨location, -, h⟩ := Option.bind_eq_some_iff.mp h
  obtain ⟨opened, -, h⟩ := Option.bind_eq_some_iff.mp h
  obtain ⟨text, -, h⟩ := Option.bind_eq_some_iff.mp h
  obtain ⟨closer, hcloser, h⟩ := Option.bind_eq_some_iff.mp h
  cases closer with
  | none => cases h
  | some close =>
    obtain ⟨before, -, h⟩ := Option.bind_eq_some_iff.mp h
    obtain ⟨body, -, h⟩ := Option.bind_eq_some_iff.mp h
    cases h
    have hle := start_le_closerAt? hcloser
    have htwo : ∀ triple, 2 ≤ (Window.closing triple).length := by decide
    have hclosing := htwo (startsWith openTriple opened)
    simp only
    split_ifs at hle <;> omega

/-! ### The first closer -/

/-- A window with the delimiters it has in the source: it ends just past the first closer that its
beginning admits, and its body is what lies between the delimiters without a tilde at either end.
`rest` is the text after its beginning, in which the closer is looked for. -/
structure PlacedWindow.EndsFirst (placed : PlacedWindow) (before : List Char) (long : Bool)
    (rest : List Char) : Prop where
  location : placed.location = Location.start.after before
  closer : ∃ between closer after,
    Window.FirstCloser (Window.closers placed.window.triple long) rest between closer after ∧
    placed.stop = bytes (before ++ (Window.opening placed.window.triple).toList ++
      Window.tilde placed.window.trimLeft ++ Window.mark long ++ between ++ closer.toList) ∧
    placed.window.body ++ Window.tilde placed.window.trimRight ++
        (Window.closing placed.window.triple).toList =
      Window.mark long ++ between ++ closer.toList
  trimRight : placed.window.trimRight = false → '~' ∉ placed.window.body.getLast?

theorem Window.getLast?_ofInner {triple trimLeft : Bool} {inner : List Char}
    (h : (ofInner triple trimLeft inner).trimRight = false) :
    '~' ∉ (ofInner triple trimLeft inner).body.getLast? := by
  unfold ofInner at h ⊢
  split
  · rename_i htilde
    rw [if_pos htilde] at h
    cases h
  · assumption

/-- What comes of reading at an opener, with `text` after it: an error exactly if there is no closer
that the beginning of the window admits, and otherwise the window up to the first. -/
def ReadsFirst (before text : List Char) (result : Except DirectiveError PlacedWindow) : Prop :=
  ∃ triple trimLeft long rest, Window.Begins triple trimLeft text (Window.mark long ++ rest) ∧
    long = (!triple && startsWith "!--" (Window.mark long ++ rest)) ∧
    (result = .error ⟨.unclosedMustache, Location.start.after before⟩ ∧
        Window.Unclosed (Window.closers triple long) rest ∨
      ∃ placed : PlacedWindow, result = .ok placed ∧
        placed.window.triple = triple ∧ placed.window.trimLeft = trimLeft ∧
        placed.EndsFirst before long rest)

theorem exists_windowAt? (before text : List Char) :
    ∃ result, windowAt? (before ++ (openBraces.toList ++ text)) (bytes before) = some result ∧
      ReadsFirst before text result := by
  obtain ⟨triple, trimLeft, opened, hbegins⟩ := Window.exists_begins text
  obtain ⟨long, rest, rfl, hlong, hcases⟩ := Window.readInner_first triple trimLeft opened
  refine ⟨_, windowAt?_append before text, triple, trimLeft, long, rest, hbegins, hlong, ?_⟩
  rw [hbegins.read?_eq]
  rcases hcases with ⟨hread, hunclosed⟩ | ⟨between, closer, after, inner, hread, hfirst, hinner⟩
  · rw [hread]
    exact .inl ⟨rfl, hunclosed⟩
  · rw [hread]
    obtain ⟨htriple, htrimLeft⟩ := (Window.inner_append_of_readInner hread).1
    refine .inr ⟨_, rfl, htriple, htrimLeft, rfl, ⟨between, closer, after, ?_, ?_, ?_⟩,
      Window.getLast?_ofInner⟩
    · rwa [htriple]
    · simp only [htriple, htrimLeft, Window.spelling_ofInner, List.append_assoc, hinner]
    · rw [htriple, List.append_assoc _ between, ← hinner]
      exact congrArg (· ++ (Window.closing triple).toList) (Window.inner_ofInner triple trimLeft inner)

end TemplateTree
