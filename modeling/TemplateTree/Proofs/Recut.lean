/-
One window changed.

Where a window ends depends on nothing that comes after it, so a window that was read in one place
reads as it is written in any: `Window.Reads`.  Where the next one begins depends on no more of it
than its opening delimiter.  So a window may be taken out of a source and another put in its place,
if that one reads too and asks for the same blanks after it to be dropped.  All others are cut as
they were, only at other places.

That another body still reads is shown for the bodies that differ in blanks only.  No delimiter has
a blank in it, so the search for one goes on alike in both.
-/
import TemplateTree.Proofs.Respacing
import TemplateTree.Proofs.Unplaced

namespace TemplateTree

/-! ### What comes after does not count -/

/-- No place before the one that was found has the form. -/
theorem not_found_of_splitWhere {found : List Char → Bool} {text before after : List Char}
    (h : splitWhere found text = some (before, after)) :
    ∀ part, part ≠ [] → part <:+ before → found (part ++ after) = false := by
  induction text generalizing before with
  | nil =>
    intro part hne hpart
    have hnil : before = [] := (List.append_eq_nil_iff.mp (splitWhere_append h)).1
    rw [hnil] at hpart
    exact absurd (List.suffix_nil.mp hpart) hne
  | cons c rest ih =>
    intro part hne hpart
    rw [splitWhere_cons] at h
    split at h
    · cases h
      exact absurd (List.suffix_nil.mp hpart) hne
    · rename_i hnot
      obtain ⟨⟨first, second⟩, hlater, heq⟩ := Option.map_eq_some_iff.mp h
      cases heq
      rcases List.suffix_cons_iff.mp hpart with rfl | hlaterPart
      · rw [List.cons_append, splitWhere_append hlater]
        simpa using hnot
      · exact ih hlater part hne hlaterPart

/-- The place that was found is found again, whatever comes after, if that cannot be told from any
place before. -/
theorem splitWhere_change {found : List Char → Bool} {before stop after after' : List Char}
    (h : splitWhere found (before ++ (stop ++ after)) = some (before, stop ++ after))
    (hbefore : ∀ part, part ≠ [] → part <:+ before →
      found (part ++ stop ++ after') = found (part ++ stop ++ after))
    (hstop : found (stop ++ after') = true) :
    splitWhere found (before ++ (stop ++ after')) = some (before, stop ++ after') := by
  induction before with
  | nil => exact splitWhere_of_found hstop
  | cons c rest ih =>
    have hsame := hbefore (c :: rest) (List.cons_ne_nil c rest) (List.suffix_refl _)
    simp only [List.cons_append, List.append_assoc] at hsame
    rw [List.cons_append, splitWhere_cons] at h ⊢
    rw [hsame]
    split at h
    · cases h
    · rename_i hnot
      rw [if_neg hnot]
      obtain ⟨⟨first, second⟩, hfound, heq⟩ := Option.map_eq_some_iff.mp h
      cases heq
      rw [ih hfound fun part hne hsuffix => hbefore part hne (hsuffix.trans (List.suffix_cons c _))]
      rfl

/-- Whether a text begins with some characters is settled by as many of them. -/
theorem startsWith_append {sought : String} {first : List Char}
    (h : sought.toList.length ≤ first.length) (rest : List Char) :
    startsWith sought (first ++ rest) = startsWith sought first := by
  rw [Bool.eq_iff_iff, startsWith, startsWith, List.isPrefixOf_iff_prefix,
    List.isPrefixOf_iff_prefix]
  exact ⟨fun hpre => List.prefix_of_prefix_length_le hpre (List.prefix_append _ _) h,
    fun hpre => hpre.trans (List.prefix_append _ _)⟩

/-- A delimiter is found where it was, whatever comes after it. -/
theorem splitWhere_startsWith_change {sought : String} {before after : List Char}
    (h : splitWhere (startsWith sought) (before ++ (sought.toList ++ after)) =
      some (before, sought.toList ++ after)) (after' : List Char) :
    splitWhere (startsWith sought) (before ++ (sought.toList ++ after')) =
      some (before, sought.toList ++ after') := by
  refine splitWhere_change h ?_ (List.isPrefixOf_iff_prefix.mpr (List.prefix_append _ _))
  intro part _ _
  have hlength : sought.toList.length ≤ (part ++ sought.toList).length := by simp
  rw [startsWith_append hlength, startsWith_append hlength]

namespace Window

/-- A window that is read where it is written, whatever comes after it. -/
def Reads (w : Window) : Prop :=
  ∀ after, read? ((w.spelling ++ after).drop 2) = some (w, after)

theorem readPlain_change {triple : Bool} {text inner after : List Char}
    (h : readPlain triple text = some (inner, after)) (after' : List Char) :
    readPlain triple (inner ++ ((closing triple).toList ++ after')) = some (inner, after') := by
  unfold readPlain at h
  obtain ⟨⟨before, found⟩, hsplit, heq⟩ := Option.map_eq_some_iff.mp h
  cases heq
  have htext := splitWhere_append hsplit
  rw [← htext, ← drop_of_startsWith (splitWhere_found hsplit)] at hsplit
  rw [readPlain, splitWhere_startsWith_change hsplit]
  simp [← String.length_toList]

/-- The end of a long comment is settled by five characters. -/
theorem commentEnd_of_length {first : List Char} (h : 5 ≤ first.length) (rest : List Char) :
    commentEnd (first ++ rest) = commentEnd first := by
  have hplain : ("--" ++ closeBraces).toList.length = 4 := by decide
  have htilde : ("--~" ++ closeBraces).toList.length = 5 := by decide
  unfold commentEnd
  rw [startsWith_append (by omega), startsWith_append (by omega)]

theorem eq_of_commentEnd {text : List Char} {dashes : String} (h : commentEnd text = some dashes) :
    dashes = "--" ∨ dashes = "--~" := by
  unfold commentEnd at h
  split at h
  · exact .inl (Option.some.inj h).symm
  · split at h
    · exact .inr (Option.some.inj h).symm
    · cases h

theorem commentEnd_dashes {dashes : String} (h : dashes = "--" ∨ dashes = "--~")
    (after : List Char) :
    commentEnd (dashes.toList ++ (closing false).toList ++ after) = some dashes := by
  rcases h with rfl | rfl <;>
    simp [commentEnd, startsWith, closing, closeBraces, List.isPrefixOf]

theorem readComment_change {text inner after : List Char}
    (h : readComment text = some (inner, after)) :
    ∃ rest, inner = "!--".toList ++ rest ∧
      ∀ after', readComment (rest ++ ((closing false).toList ++ after')) = some (inner, after') := by
  unfold readComment at h
  split at h
  · cases h
  · rename_i before found hsplit
    obtain ⟨dashes, hdashes, heq⟩ := Option.map_eq_some_iff.mp h
    cases heq
    have hkind := eq_of_commentEnd hdashes
    have hlength : 2 ≤ dashes.toList.length ∧ (closing false).toList.length = 2 := by
      rcases hkind with rfl | rfl <;> decide
    refine ⟨before ++ dashes.toList, by simp, fun after' => ?_⟩
    have htext := splitWhere_append hsplit
    rw [← htext, ← commentEnd_append hdashes] at hsplit
    have hchange := @splitWhere_change _ _ _ _ after' hsplit ?_ ?_
    · rw [readComment, List.append_assoc, ← List.append_assoc dashes.toList, hchange]
      simp only [commentEnd_dashes hkind, Option.map_some]
      rcases hkind with rfl | rfl <;> rfl
    · intro part hne _
      have hpart := List.length_pos_iff.mpr hne
      have hfive : 5 ≤ (part ++ (dashes.toList ++ (closing false).toList)).length := by
        simp only [List.length_append]
        omega
      rw [commentEnd_of_length hfive, commentEnd_of_length hfive]
    · rw [commentEnd_dashes hkind]
      rfl

/-- The text between the delimiters, with the tilde at its end. -/
def inner (w : Window) : List Char :=
  w.body ++ tilde w.trimRight

theorem inner_ofInner (triple trimLeft : Bool) (inner : List Char) :
    (ofInner triple trimLeft inner).inner = inner := by
  unfold ofInner
  split
  · rename_i h
    obtain ⟨start, rfl⟩ := List.getLast?_eq_some_iff.1 h
    simp [Window.inner, tilde]
  · simp [Window.inner, tilde]

theorem spelling_eq_inner (w : Window) :
    w.spelling = (opening w.triple).toList ++ (tilde w.trimLeft ++
      (w.inner ++ (closing w.triple).toList)) := by
  simp [spelling, inner]

theorem readInner_change {triple trimLeft : Bool} {text after : List Char} {w : Window}
    (h : readInner triple trimLeft text = some (w, after)) (after' : List Char) :
    readInner triple trimLeft (w.inner ++ ((closing triple).toList ++ after')) =
      some (w, after') := by
  unfold readInner at h
  obtain ⟨⟨inner, left⟩, hfound, heq⟩ := Option.map_eq_some_iff.mp h
  cases heq
  rw [inner_ofInner]
  split at hfound
  · rename_i hcomment
    obtain ⟨hdouble, -⟩ : triple = false ∧ startsWith "!--" text = true := by
      simpa using hcomment
    obtain ⟨rest, rfl, hread⟩ := readComment_change hfound
    subst hdouble
    have hstart : startsWith "!--"
        ("!--".toList ++ rest ++ ((closing false).toList ++ after')) = true :=
      List.isPrefixOf_iff_prefix.mpr ⟨rest ++ ((closing false).toList ++ after'), by simp⟩
    have hdrop : ("!--".toList ++ rest ++ ((closing false).toList ++ after')).drop 3 =
        rest ++ ((closing false).toList ++ after') := rfl
    rw [readInner, hstart, hdrop, hread]
    rfl
  · rename_i hcomment
    have hplain : (!triple && startsWith "!--" (inner ++ ((closing triple).toList ++ after'))) =
        false := by
      cases triple with
      | true => rfl
      | false =>
        have hnot : startsWith "!--" text = false := by simpa using hcomment
        rw [← readPlain_append hfound] at hnot
        rw [Bool.not_false, Bool.true_and]
        cases inner with
        | nil => exact @startsWith_cons_of_ne _ '!' _ (by decide) (by decide) _
        | cons c rest =>
          have hthree : "!--".toList.length ≤ (c :: rest ++ (closing false).toList).length := by
            simp [closing, closeBraces]
          rw [startsWith_append hthree] at hnot
          rw [← List.append_assoc, startsWith_append hthree, hnot]
    rw [readInner, hplain, if_neg Bool.false_ne_true, readPlain_change hfound]
    rfl

/-- What was read is the inner text up to the delimiter. -/
theorem inner_append_of_readInner {triple trimLeft : Bool} {text after : List Char} {w : Window}
    (h : readInner triple trimLeft text = some (w, after)) :
    (w.triple = triple ∧ w.trimLeft = trimLeft) ∧
      w.inner ++ ((closing triple).toList ++ after) = text := by
  have hflags : w.triple = triple ∧ w.trimLeft = trimLeft := by
    unfold readInner at h
    obtain ⟨⟨inner, left⟩, -, heq⟩ := Option.map_eq_some_iff.mp h
    cases heq
    unfold ofInner
    split <;> exact ⟨rfl, rfl⟩
  have happend := readInner_append h
  rw [spelling_eq_inner, hflags.1, hflags.2] at happend
  exact ⟨hflags, by simpa using happend⟩

/-- A third brace, if there is one. -/
def brace (triple : Bool) : List Char :=
  if triple then ['\x7b'] else []

/-- A third brace and a tilde belong to the beginning of a window if they are there. -/
structure Begins (triple trimLeft : Bool) (text rest : List Char) : Prop where
  split : text = brace triple ++ (tilde trimLeft ++ rest)
  brace : triple = false → '\x7b' ∉ (tilde trimLeft ++ rest).head?
  tilde : trimLeft = false → '~' ∉ rest.head?

/-- Every text begins a window in one way or another. -/
theorem exists_begins (text : List Char) :
    ∃ triple trimLeft rest, Begins triple trimLeft text rest := by
  obtain ⟨triple, opened, hbrace, hopened⟩ : ∃ triple opened, text = brace triple ++ opened ∧
      (triple = false → '\x7b' ∉ opened.head?) := by
    by_cases h : '\x7b' ∈ text.head?
    · obtain ⟨opened, rfl⟩ := List.head?_eq_some_iff.mp h
      exact ⟨true, opened, rfl, by simp⟩
    · exact ⟨false, text, rfl, fun _ => h⟩
  by_cases h : '~' ∈ opened.head?
  · obtain ⟨rest, rfl⟩ := List.head?_eq_some_iff.mp h
    exact ⟨triple, true, rest, hbrace, hopened, by simp⟩
  · exact ⟨triple, false, opened, hbrace, hopened, fun _ => h⟩

/-- A window is read after its beginning. -/
theorem Begins.read?_eq {triple trimLeft : Bool} {text rest : List Char}
    (h : Begins triple trimLeft text rest) : read? text = readInner triple trimLeft rest := by
  obtain ⟨rfl, hbrace, htilde⟩ := h
  cases triple <;> cases trimLeft
  case true.true => rfl
  case false.true => rfl
  case true.false =>
    simp only [read?, Window.brace, Window.tilde, if_true, Bool.false_eq_true, if_false,
      List.singleton_append, List.nil_append]
    split
    · exact absurd rfl (htilde rfl)
    · rfl
  case false.false =>
    have hnot := hbrace rfl
    simp only [Window.brace, Window.tilde, Bool.false_eq_true, if_false, List.nil_append] at hnot ⊢
    unfold read?
    split
    rename_i hopening
    split at hopening
    · exact absurd rfl hnot
    · cases hopening
      split
      · exact absurd rfl (htilde rfl)
      · rfl

/-- A window is read after the brace and the tilde that it has, and there are no others. -/
theorem read?_eq_some_iff {text after : List Char} {w : Window} :
    read? text = some (w, after) ↔
      ∃ rest, Begins w.triple w.trimLeft text rest ∧
        readInner w.triple w.trimLeft rest = some (w, after) := by
  constructor
  · intro h
    obtain ⟨triple, trimLeft, rest, hbegins⟩ := exists_begins text
    rw [hbegins.read?_eq] at h
    obtain ⟨⟨rfl, rfl⟩, -⟩ := inner_append_of_readInner h
    exact ⟨rest, hbegins, h⟩
  · rintro ⟨rest, hbegins, hread⟩
    rw [hbegins.read?_eq, hread]

/-- What is read of a window that is written out. -/
theorem drop_spelling (w : Window) (after : List Char) :
    (w.spelling ++ after).drop 2 =
      brace w.triple ++ (tilde w.trimLeft ++ (w.inner ++ ((closing w.triple).toList ++ after))) := by
  rw [spelling_eq_inner]
  cases w.triple <;> simp [opening, openBraces, openTriple, brace]

/-- **What was read once is read wherever it is written.** -/
theorem reads_of_read? {text after : List Char} {w : Window} (h : read? text = some (w, after)) :
    w.Reads := by
  intro after'
  obtain ⟨rest, ⟨-, hbrace, htilde⟩, hread⟩ := read?_eq_some_iff.mp h
  have hinner : w.inner ++ (closing w.triple).toList ≠ [] := by
    cases w.triple <;> simp [closing, closeBraces, closeTriple]
  have hhead : ∀ more, (w.inner ++ ((closing w.triple).toList ++ more)).head? =
      (w.inner ++ (closing w.triple).toList).head? := by
    intro more
    rw [← List.append_assoc, List.head?_append_of_ne_nil _ hinner]
  obtain rfl := (inner_append_of_readInner hread).2
  refine read?_eq_some_iff.mpr ⟨w.inner ++ ((closing w.triple).toList ++ after'),
    ⟨w.drop_spelling after', ?_, ?_⟩, readInner_change hread after'⟩
  · intro htriple
    have hnot := hbrace htriple
    rwa [List.head?_append, hhead] at hnot ⊢
  · intro htrim
    have hnot := htilde htrim
    rwa [hhead] at hnot ⊢

end Window

/-! ### Blanks do not count -/

namespace Respaced

variable {text text' : List Char}

/-- What is not blank at the end stays there. -/
theorem exists_concat {c : Char} (hc : isBlank c = false) (h : Respaced (text ++ [c]) text') :
    ∃ start, text' = start ++ [c] ∧ Respaced text start := by
  have hreverse := h.reverse
  rw [List.reverse_append, List.reverse_singleton, List.singleton_append] at hreverse
  obtain ⟨rest, hrest, hsame⟩ := hreverse.exists_cons hc
  refine ⟨rest.reverse, ?_, by simpa using hsame.reverse⟩
  rw [← List.reverse_reverse text', hrest, List.reverse_cons]

/-- Blanks are passed over in the search for what begins with no blank. -/
theorem splitWhere_blanks {found : List Char → Bool}
    (hblank : ∀ {c : Char} (rest : List Char), isBlank c = true → found (c :: rest) = false)
    {run : List Char} (hrun : ∀ c ∈ run, isBlank c = true) (text : List Char) :
    splitWhere found (run ++ text) =
      (splitWhere found text).map fun (before, after) => (run ++ before, after) := by
  induction run with
  | nil => simp
  | cons c rest ih =>
    rw [List.cons_append, splitWhere_cons, hblank _ (hrun c (by simp)),
      ih fun d hd => hrun d (by simp [hd])]
    cases splitWhere found text <;> simp

/-- What begins with no blank is found in the same place. -/
theorem exists_splitWhere {found : List Char → Bool}
    (hfound : ∀ {part part' : List Char}, Respaced part part' → found part = found part')
    (hblank : ∀ {c : Char} (rest : List Char), isBlank c = true → found (c :: rest) = false)
    (h : Respaced text text') {before after : List Char}
    (hs : splitWhere found text = some (before, after)) :
    ∃ before' after', splitWhere found text' = some (before', after') ∧
      Respaced before before' ∧ Respaced after after' := by
  induction h generalizing before with
  | nil => exact ⟨before, after, hs, .refl _, .refl _⟩
  | @cons c text text' h ih =>
    rw [splitWhere_cons] at hs
    rw [splitWhere_cons, ← hfound (h.cons c)]
    split at hs
    · rename_i hhere
      cases hs
      exact ⟨[], c :: text', by rw [if_pos hhere], .nil, h.cons c⟩
    · rename_i hnot
      obtain ⟨⟨first, second⟩, hlater, heq⟩ := Option.map_eq_some_iff.mp hs
      cases heq
      obtain ⟨before', after', hs', hbefore, hafter⟩ := ih hlater
      exact ⟨c :: before', after', by rw [if_neg hnot, hs']; rfl, hbefore.cons c, hafter⟩
  | @blanks b b' run run' text text' hb hb' hrun hrun' h ih =>
    rw [← List.cons_append, splitWhere_blanks hblank (List.forall_mem_cons.mpr ⟨hb, hrun⟩)] at hs
    obtain ⟨⟨first, second⟩, hlater, heq⟩ := Option.map_eq_some_iff.mp hs
    cases heq
    obtain ⟨before', after', hs', hbefore, hafter⟩ := ih hlater
    refine ⟨b' :: run' ++ before', after', ?_, ?_, hafter⟩
    · rw [← List.cons_append, splitWhere_blanks hblank (List.forall_mem_cons.mpr ⟨hb', hrun'⟩), hs']
      rfl
    · exact .blanks hb hb' hrun hrun' hbefore

end Respaced

namespace Window

variable {text text' : List Char}

theorem not_isBlank_closing (triple : Bool) :
    ∀ c ∈ (closing triple).toList, isBlank c = false := by
  intro c hc
  rw [mem_closing_iff.mp hc]
  decide

theorem readPlain_respaced {triple : Bool} (h : Respaced text text') {inner after : List Char}
    (hread : readPlain triple text = some (inner, after)) :
    ∃ inner' after', readPlain triple text' = some (inner', after') ∧
      Respaced inner inner' ∧ Respaced after after' := by
  unfold readPlain at hread
  obtain ⟨⟨before, found⟩, hsplit, heq⟩ := Option.map_eq_some_iff.mp hread
  cases heq
  have hblank : ∀ {c : Char} (rest : List Char), isBlank c = true →
      startsWith (closing triple) (c :: rest) = false := by
    intro c rest hc
    refine @startsWith_cons_of_ne _ '\x7d' _ (by cases triple <;> decide) ?_ rest
    rintro rfl
    simp [isBlank] at hc
  obtain ⟨before', found', hsplit', hbefore, hfound⟩ :=
    h.exists_splitWhere (fun h => h.startsWith_eq (not_isBlank_closing triple)) hblank hsplit
  obtain ⟨after', rfl, hafter⟩ := hfound.exists_append (not_isBlank_closing triple)
    (drop_of_startsWith (splitWhere_found hsplit)).symm
  refine ⟨before', after', ?_, hbefore, hafter⟩
  rw [readPlain, hsplit']
  simp [← String.length_toList]

/-- A long comment ends in both texts, or in neither. -/
theorem commentEnd_respaced (h : Respaced text text') : commentEnd text = commentEnd text' := by
  unfold commentEnd
  rw [h.startsWith_eq (by simp [closeBraces, isBlank]),
    h.startsWith_eq (by simp [closeBraces, isBlank])]

theorem readComment_respaced (h : Respaced text text') {inner after : List Char}
    (hread : readComment text = some (inner, after)) :
    ∃ inner' after', readComment text' = some (inner', after') ∧
      Respaced inner inner' ∧ Respaced after after' := by
  unfold readComment at hread
  split at hread
  · cases hread
  · rename_i before found hsplit
    obtain ⟨dashes, hdashes, heq⟩ := Option.map_eq_some_iff.mp hread
    cases heq
    have hblank : ∀ {c : Char} (rest : List Char), isBlank c = true →
        (commentEnd (c :: rest)).isSome = false := by
      intro c rest hc
      have hdash : '-' ≠ c := by
        rintro rfl
        simp [isBlank] at hc
      rw [commentEnd, @startsWith_cons_of_ne _ '-' _ (by decide) hdash,
        @startsWith_cons_of_ne _ '-' _ (by decide) hdash]
      rfl
    obtain ⟨before', found', hsplit', hbefore, hfound⟩ :=
      h.exists_splitWhere (fun h => by rw [commentEnd_respaced h]) hblank hsplit
    have hkind := eq_of_commentEnd hdashes
    have hfirst : ∀ c ∈ dashes.toList ++ (closing false).toList, isBlank c = false := by
      rcases hkind with rfl | rfl <;> simp [closing, closeBraces, isBlank]
    obtain ⟨after', rfl, hafter⟩ := hfound.exists_append hfirst (commentEnd_append hdashes).symm
    refine ⟨"!--".toList ++ before' ++ dashes.toList, after', ?_,
      ((Respaced.refl _).append hbefore).append (.refl _), hafter⟩
    rw [readComment, hsplit']
    simp only [commentEnd_dashes hkind, Option.map_some]
    rcases hkind with rfl | rfl <;> rfl

theorem ofInner_respaced (triple trimLeft : Bool) (h : Respaced text text') :
    ∃ body', ofInner triple trimLeft text' = (ofInner triple trimLeft text).withBody body' ∧
      Respaced (ofInner triple trimLeft text).body body' := by
  by_cases hlast : text.getLast? = some '~'
  · obtain ⟨start, rfl⟩ := List.getLast?_eq_some_iff.mp hlast
    obtain ⟨start', rfl, hstart⟩ := h.exists_concat (by decide)
    exact ⟨start', by simp [ofInner, withBody], by simpa [ofInner] using hstart⟩
  · have hlast' : text'.getLast? ≠ some '~' := by
      intro heq
      obtain ⟨start', rfl⟩ := List.getLast?_eq_some_iff.mp heq
      obtain ⟨start, rfl, -⟩ := h.symm.exists_concat (by decide)
      simp at hlast
    exact ⟨text', by simp [ofInner, hlast, hlast', withBody], by simpa [ofInner, hlast] using h⟩

theorem readInner_respaced {triple trimLeft : Bool} (h : Respaced text text') {w : Window}
    {after : List Char} (hread : readInner triple trimLeft text = some (w, after)) :
    ∃ body' after', readInner triple trimLeft text' = some (w.withBody body', after') ∧
      Respaced w.body body' ∧ Respaced after after' := by
  have hstart : startsWith "!--" text = startsWith "!--" text' :=
    h.startsWith_eq (by simp [isBlank])
  unfold readInner at hread
  obtain ⟨⟨inner, left⟩, hfound, heq⟩ := Option.map_eq_some_iff.mp hread
  cases heq
  have hfound' : ∃ inner' after',
      (if !triple && startsWith "!--" text' then readComment (text'.drop 3)
        else readPlain triple text') = some (inner', after') ∧
        Respaced inner inner' ∧ Respaced after after' := by
    rw [← hstart]
    split at hfound
    · rename_i hcomment
      obtain ⟨-, hmark⟩ : triple = false ∧ startsWith "!--" text = true := by
        simpa using hcomment
      obtain ⟨rest', rfl, hrest⟩ := @Respaced.exists_append _ _ h "!--".toList _ (by simp [isBlank])
        (drop_of_startsWith hmark).symm
      rw [if_pos hcomment]
      exact readComment_respaced hrest hfound
    · rename_i hcomment
      rw [if_neg hcomment]
      exact readPlain_respaced h hfound
  obtain ⟨inner', after', hread', hinner, hafter⟩ := hfound'
  obtain ⟨body', hbody', hbody⟩ := ofInner_respaced triple trimLeft hinner
  refine ⟨body', after', ?_, hbody, hafter⟩
  rw [readInner, hread']
  exact congrArg (fun w => some (w, after')) hbody'

theorem read?_respaced (h : Respaced text text') {w : Window} {after : List Char}
    (hread : read? text = some (w, after)) :
    ∃ body' after', read? text' = some (w.withBody body', after') ∧
      Respaced w.body body' ∧ Respaced after after' := by
  obtain ⟨rest, ⟨htext, hbrace, htilde⟩, hinner⟩ := read?_eq_some_iff.mp hread
  have hlead : ∀ c ∈ brace w.triple ++ tilde w.trimLeft, isBlank c = false := by
    cases w.triple <;> cases w.trimLeft <;> simp [brace, tilde, isBlank]
  rw [← List.append_assoc] at htext
  obtain ⟨rest', rfl, hrest⟩ := h.exists_append hlead htext
  obtain ⟨body', after', hinner', hbody, hafter⟩ := readInner_respaced hrest hinner
  refine ⟨body', after', read?_eq_some_iff.mpr ⟨rest', ⟨List.append_assoc .., ?_, ?_⟩, hinner'⟩,
    hbody, hafter⟩
  · intro htriple hmem
    exact hbrace htriple (((Respaced.refl _).append hrest).mem_head? (by decide) hmem)
  · intro htrim hmem
    exact htilde htrim (hrest.mem_head? (by decide) hmem)

/-- **A window with other blanks in its body reads too.** -/
theorem reads_withBody {w : Window} (hw : w.Reads) {body' : List Char}
    (h : Respaced w.body body') : (w.withBody body').Reads := by
  have hdrop := drop_spelling (w.withBody body') []
  have hinner : Respaced w.inner (w.withBody body').inner := h.append (.refl _)
  have hspelling : Respaced ((w.spelling ++ []).drop 2)
      (((w.withBody body').spelling ++ []).drop 2) := by
    rw [w.drop_spelling, hdrop]
    exact (Respaced.refl _).append ((Respaced.refl _).append (hinner.append (.refl _)))
  obtain ⟨body'', after, hread, -, hafter⟩ := read?_respaced hspelling (hw [])
  cases hafter
  -- what is read spells the text it is read from, and that has this body
  have hsame : (w.withBody body'').spelling = (w.withBody body').spelling := by
    have hopening : openBraces.toList ++ ((w.withBody body').spelling ++ []).drop 2 =
        (w.withBody body').spelling ++ [] := drop_of_startsWith (startsWith_spelling _ _)
    have happend := spelling_append hread
    rw [hopening] at happend
    simpa using happend
  obtain rfl : body'' = body' := by simpa [spelling, withBody] using hsame
  exact reads_of_read? hread

end Window

namespace Cut

/-- A gap is a gap before any window. -/
theorem splitWhere_gap {gap opened : List Char} {text : List Char}
    (hs : splitWhere (startsWith openBraces) text = some (gap, opened)) (w : Window)
    (after : List Char) :
    splitWhere (startsWith openBraces) (gap ++ (w.spelling ++ after)) =
      some (gap, w.spelling ++ after) := by
  have hopened := Window.drop_of_startsWith (splitWhere_found hs)
  have hw := Window.drop_of_startsWith (w.startsWith_spelling after)
  have htext := splitWhere_append hs
  rw [← htext, ← hopened] at hs
  rw [← hw]
  exact splitWhere_startsWith_change hs _

/-- The cut with other segments. -/
def withSegments (c : Cut) (segments : List Segment) : Cut :=
  { c with segments }

/-- A cut with a segment before it. -/
def cons (s : Segment) (c : Cut) : Cut :=
  c.withSegments (s :: c.segments)

theorem spelling_cons (s : Segment) (c : Cut) :
    (c.cons s).spelling = s.gap ++ (s.window.spelling ++ c.spelling) := by
  simp [spelling, cons, withSegments]

/-- Where nothing else is different, it is enough to compare the first segments. -/
theorem unplaced_cons {s s' : Segment} {c c' : Cut} (hs : s.unplaced = s'.unplaced)
    (h : c.unplaced = c'.unplaced) : (c.cons s).unplaced = (c'.cons s').unplaced := by
  have hcons : ∀ (s : Segment) (c : Cut), (c.cons s).unplaced = c.unplaced.cons s.unplaced :=
    fun _ _ => rfl
  rw [hcons, hcons, hs, h]

/-- **A source with one window changed is cut as before**, but for that window, and for the places
of those after it. -/
theorem unplaced_ofText_change {here : Location} {trimmed : Bool} {text : List Char}
    (before : List Segment) {after : List Segment} {s s' : Segment}
    (hcut : (ofText here trimmed text).segments = before ++ s :: after) (hgap : s'.gap = s.gap)
    (hstart : s'.trimStart = s.trimStart) (hreads : s'.window.Reads)
    (hright : s'.window.trimRight = s.window.trimRight) :
    (ofText here trimmed
        ((ofText here trimmed text).withSegments (before ++ s' :: after)).spelling).unplaced =
      ((ofText here trimmed text).withSegments (before ++ s' :: after)).unplaced := by
  fun_induction ofText here trimmed text generalizing before with
  | case1 => simp at hcut
  | case2 => simp at hcut
  | case3 here trimmed text gap opened hs opener window left hw later ih =>
    have hlater : later.spelling = left := spelling_ofText _ _ _
    cases before with
    | nil =>
      obtain ⟨rfl, rfl⟩ := List.cons.inj hcut
      have hspelling : (later.cons s').spelling = gap ++ (s'.window.spelling ++ left) := by
        rw [spelling_cons, hlater, hgap]
      refine (congrArg (fun text => (ofText here trimmed text).unplaced) hspelling).trans ?_
      rw [ofText_of_read here trimmed (splitWhere_gap hs s'.window left) (hreads left), hright]
      refine @unplaced_cons _ _ _ later ?_ (unplaced_ofText _ _ _ _)
      simp [Segment.unplaced, hgap, hstart]
    | cons first before =>
      obtain ⟨rfl, hrest⟩ := List.cons.inj hcut
      let changed := later.withSegments (before ++ s' :: after)
      have hspelling : (changed.cons ⟨gap, trimmed, window, opener⟩).spelling =
          gap ++ (window.spelling ++ changed.spelling) := spelling_cons _ _
      refine (congrArg (fun text => (ofText here trimmed text).unplaced) hspelling).trans ?_
      rw [ofText_of_read here trimmed (splitWhere_gap hs window changed.spelling)
        (Window.reads_of_read? hw changed.spelling)]
      exact unplaced_cons rfl (ih before hrest)

/-- Every window of a cut reads. -/
theorem reads_of_mem {here : Location} {trimmed : Bool} {text : List Char} {s : Segment}
    (h : s ∈ (ofText here trimmed text).segments) : s.window.Reads := by
  fun_induction ofText here trimmed text with
  | case1 => cases h
  | case2 => cases h
  | case3 here trimmed text gap opened hs opener window left hw later ih =>
    rcases List.mem_cons.mp h with rfl | hlater
    · exact Window.reads_of_read? hw
    · exact ih hlater

end Cut

end TemplateTree
