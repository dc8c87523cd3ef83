/-
What blanks mean to a directive.

A text is respaced when runs of blanks in it are replaced by other runs.  Nothing that the reader
of directives does to a text without quotes looks at a blank more closely than that it is one:
trimming, looking for a delimiter, cutting a text into words.  So each of these does the same to
both texts, as far as blanks go, and the words are the same.

There are two exceptions.  The name that a closing gives is kept as it stands, blanks and all;
but no block has a name with a blank in it, so both names are wrong.  And an `else` is only told
from a path by the space after it, so that space must not be replaced.
-/
import Mathlib
import TemplateTree.Directive.Event
import TemplateTree.Proofs.Plain
import TemplateTree.Proofs.Rereading

namespace TemplateTree

/-- The second text is the first with runs of blanks replaced by other runs of blanks. -/
inductive Respaced : List Char → List Char → Prop
  | nil : Respaced [] []
  | cons (c : Char) {text text' : List Char} (h : Respaced text text') :
    Respaced (c :: text) (c :: text')
  | blanks {b b' : Char} {run run' text text' : List Char} (hb : isBlank b = true)
    (hb' : isBlank b' = true) (hrun : ∀ c ∈ run, isBlank c = true)
    (hrun' : ∀ c ∈ run', isBlank c = true) (h : Respaced text text') :
    Respaced (b :: (run ++ text)) (b' :: (run' ++ text'))

namespace Respaced

variable {text text' : List Char}

theorem refl (text : List Char) : Respaced text text := by
  induction text with
  | nil => exact .nil
  | cons c rest ih => exact .cons c ih

theorem symm (h : Respaced text text') : Respaced text' text := by
  induction h with
  | nil => exact .nil
  | cons c h ih => exact .cons c ih
  | blanks hb hb' hrun hrun' h ih => exact .blanks hb' hb hrun' hrun ih

theorem append (h : Respaced text text') {more more' : List Char} (hmore : Respaced more more') :
    Respaced (text ++ more) (text' ++ more') := by
  induction h with
  | nil => exact hmore
  | cons c h ih => exact .cons c ih
  | blanks hb hb' hrun hrun' h ih =>
    rw [List.cons_append, List.cons_append, List.append_assoc, List.append_assoc]
    exact .blanks hb hb' hrun hrun' ih

/-- A run of blanks is as good as another. -/
theorem of_blanks (hne : text ≠ []) (hne' : text' ≠ []) (h : ∀ c ∈ text, isBlank c = true)
    (h' : ∀ c ∈ text', isBlank c = true) : Respaced text text' := by
  obtain ⟨b, run, rfl⟩ := List.exists_cons_of_ne_nil hne
  obtain ⟨b', run', rfl⟩ := List.exists_cons_of_ne_nil hne'
  rw [← List.append_nil run, ← List.append_nil run']
  exact .blanks (h b (by simp)) (h' b' (by simp)) (fun c hc => h c (by simp [hc]))
    (fun c hc => h' c (by simp [hc])) .nil

theorem reverse (h : Respaced text text') : Respaced text.reverse text'.reverse := by
  induction h with
  | nil => exact .nil
  | cons c h ih =>
    rw [List.reverse_cons, List.reverse_cons]
    exact ih.append (refl [c])
  | @blanks b b' run run' text text' hb hb' hrun hrun' h ih =>
    rw [← List.cons_append, ← List.cons_append, List.reverse_append, List.reverse_append]
    refine ih.append (of_blanks (by simp) (by simp) ?_ ?_)
    · simpa [or_imp, forall_and, hb] using hrun
    · simpa [or_imp, forall_and, hb'] using hrun'

/-- What is not blank stays where it is. -/
theorem exists_cons {c : Char} (hc : isBlank c = false) (h : Respaced (c :: text) text') :
    ∃ rest, text' = c :: rest ∧ Respaced text rest := by
  cases h with
  | cons _ h => exact ⟨_, rfl, h⟩
  | blanks hb => simp [hc] at hb

/-- What a text begins with, if it is no blank, the text it is respaced from begins with. -/
theorem mem_head? {c : Char} (hc : isBlank c = false) (h : Respaced text text')
    (hmem : c ∈ text'.head?) : c ∈ text.head? := by
  obtain ⟨rest', rfl⟩ := List.head?_eq_some_iff.mp hmem
  obtain ⟨rest, rfl, -⟩ := h.symm.exists_cons hc
  rfl

/-- Either a text has no blanks and stays as it is, or both have some. -/
theorem eq_or_blank (h : Respaced text text') :
    text = text' ∨ (∃ c ∈ text, isBlank c = true) ∧ ∃ c ∈ text', isBlank c = true := by
  induction h with
  | nil => exact .inl rfl
  | cons c h ih =>
    rcases ih with rfl | ⟨⟨d, hd, hblank⟩, ⟨d', hd', hblank'⟩⟩
    · exact .inl rfl
    · exact .inr ⟨⟨d, by simp [hd], hblank⟩, ⟨d', by simp [hd'], hblank'⟩⟩
  | @blanks b b' run run' text text' hb hb' hrun hrun' h ih =>
    exact .inr ⟨⟨b, by simp, hb⟩, ⟨b', by simp, hb'⟩⟩

/-! ### Trimming -/

theorem trimStart_blanks {run : List Char} (hrun : ∀ c ∈ run, isBlank c = true)
    (text : List Char) : trimStart (run ++ text) = trimStart text := by
  rw [trimStart, List.dropWhile_append_of_pos hrun, trimStart]

theorem trimStart (h : Respaced text text') :
    Respaced (trimStart text) (TemplateTree.trimStart text') := by
  induction h with
  | nil => exact .nil
  | @cons c text text' h ih =>
    by_cases hc : isBlank c = true
    · simpa [TemplateTree.trimStart, hc] using ih
    · simpa [TemplateTree.trimStart, hc] using h.cons c
  | @blanks b b' run run' text text' hb hb' hrun hrun' h ih =>
    rw [← List.cons_append, ← List.cons_append, trimStart_blanks (by simpa [hb] using hrun),
      trimStart_blanks (by simpa [hb'] using hrun')]
    exact ih

theorem trim (h : Respaced text text') : Respaced (trim text) (TemplateTree.trim text') :=
  h.trimStart.reverse.trimStart.reverse

/-- Both are blank, or neither is. -/
theorem all_isBlank (h : Respaced text text') : text.all isBlank = text'.all isBlank := by
  induction h with
  | nil => rfl
  | cons c h ih => rw [List.all_cons, List.all_cons, ih]
  | blanks hb hb' hrun hrun' h ih =>
    rw [List.all_cons, List.all_cons, List.all_append, List.all_append, hb, hb', ih,
      List.all_eq_true.mpr hrun, List.all_eq_true.mpr hrun']

/-! ### Words -/

/-- What goes on as long as there are no blanks ends in the same place. -/
theorem takeWhile_dropWhile (keep : Char → Bool) (hkeep : ∀ c, isBlank c = true → keep c = false)
    (h : Respaced text text') :
    text.takeWhile keep = text'.takeWhile keep ∧
      Respaced (text.dropWhile keep) (text'.dropWhile keep) := by
  induction h with
  | nil => exact ⟨rfl, .nil⟩
  | @cons c text text' h ih =>
    by_cases hc : keep c = true
    · simpa [hc] using ih
    · simpa [hc] using h.cons c
  | blanks hb hb' hrun hrun' h ih =>
    simpa [hkeep _ hb, hkeep _ hb'] using .blanks hb hb' hrun hrun' h

end Respaced

/-- A text without characters that begin a string. -/
def Unquoted (text : List Char) : Prop :=
  ∀ c ∈ text, Expression.isQuote c = false

namespace Expression

/-- Two readings that come to the same: they fail alike, or read the same and leave texts that
differ in blanks. -/
inductive SameReading {α : Type} :
    Except ExpressionFault (α × List Char) → Except ExpressionFault (α × List Char) → Prop
  | error (fault : ExpressionFault) : SameReading (.error fault) (.error fault)
  | ok (a : α) {rest rest' : List Char} (hquote : Unquoted rest) (h : Respaced rest rest') :
    SameReading (.ok (a, rest)) (.ok (a, rest'))

theorem isQuote_of_isBlank {c : Char} (h : isBlank c = true) : isQuote c = false := by
  by_contra hquote
  simp only [isQuote, Bool.not_eq_false, Bool.or_eq_true, beq_iff_eq] at hquote
  rcases hquote with rfl | rfl <;> simp [isBlank] at h

variable {text text' : List Char}

theorem sameReading_readValue (hquote : Unquoted text) (h : Respaced text text') :
    SameReading (readValue text) (readValue text') := by
  cases h with
  | nil => exact .error .missingValue
  | @cons c rest rest' h =>
    have hc : isQuote c = false := hquote c (by simp)
    by_cases hblank : isBlank c = true
    · simpa [readValue, hc, hblank] using .error .missingValue
    · obtain ⟨htake, hdrop⟩ := (h.cons c).takeWhile_dropWhile (!isBlank ·) (by simp)
      have hread : ∀ tail : List Char, readValue (c :: tail) =
          .ok (.bare (String.ofList ((c :: tail).takeWhile (!isBlank ·))),
            (c :: tail).dropWhile (!isBlank ·)) := by
        intro tail
        simp [readValue, hc, hblank]
      rw [hread, hread, htake]
      exact .ok _ (fun d hd => hquote d ((List.dropWhile_suffix _).subset hd)) hdrop
  | blanks hb hb' =>
    simpa [readValue, isQuote_of_isBlank hb, isQuote_of_isBlank hb', hb, hb'] using
      .error .missingValue

/-- An equals sign ends a key, and its value is read. -/
theorem readWord_of_equals {c : Char} (hc : isQuote c = false) (hequals : c ≠ '=')
    {rest : List Char} (hrest : text.dropWhile isBareChar = '=' :: rest) :
    readWord c text = (readValue rest).map fun read =>
      (⟨some (String.ofList (c :: text.takeWhile isBareChar)), read.1⟩, read.2) := by
  cases hread : readValue rest <;>
    simp [readWord, hc, hequals, hrest, hread, bind, Except.bind, Except.map]

/-- Anything else ends a word. -/
theorem readWord_of_ne_equals {c : Char} (hc : isQuote c = false) (hequals : c ≠ '=')
    (hrest : '=' ∉ (text.dropWhile isBareChar).head?) :
    readWord c text = .ok (⟨none, .bare (String.ofList (c :: text.takeWhile isBareChar))⟩,
      text.dropWhile isBareChar) := by
  simp only [readWord, hc, hequals, Bool.false_eq_true, if_false]
  split
  · rename_i rest hdrop
    simp [hdrop] at hrest
  · rfl

theorem SameReading.map {α β : Type} {x y : Except ExpressionFault (α × List Char)} (make : α → β)
    (h : SameReading x y) :
    SameReading (x.map fun read => (make read.1, read.2))
      (y.map fun read => (make read.1, read.2)) := by
  cases h with
  | error fault => exact .error fault
  | ok a hquote h => exact .ok (make a) hquote h

theorem sameReading_readWord {c : Char} (hc : isQuote c = false) (hquote : Unquoted text)
    (h : Respaced text text') : SameReading (readWord c text) (readWord c text') := by
  by_cases hequals : c = '='
  · simpa [readWord, hc, hequals] using .error .missingKey
  obtain ⟨htake, hdrop⟩ :=
    h.takeWhile_dropWhile isBareChar (by simp +contextual [isBareChar])
  have hquote' : Unquoted (text.dropWhile isBareChar) := fun d hd =>
    hquote d ((List.dropWhile_suffix _).subset hd)
  by_cases hvalue : '=' ∈ (text.dropWhile isBareChar).head?
  · obtain ⟨rest, hrest⟩ := List.head?_eq_some_iff.mp hvalue
    rw [hrest] at hdrop hquote'
    obtain ⟨rest', hrest', hsame⟩ := hdrop.exists_cons (by decide)
    rw [readWord_of_equals hc hequals hrest, readWord_of_equals hc hequals hrest', htake]
    exact (sameReading_readValue (fun d hd => hquote' d (by simp [hd])) hsame).map _
  · have hvalue' : '=' ∉ (text'.dropWhile isBareChar).head? := fun hmem =>
      hvalue (hdrop.mem_head? (by decide) hmem)
    rw [readWord_of_ne_equals hc hequals hvalue, readWord_of_ne_equals hc hequals hvalue', htake]
    exact .ok _ hquote' hdrop

/-- **The words are the same.** -/
theorem readWords_respaced (text : List Char) {text' : List Char} (hquote : Unquoted text)
    (h : Respaced text text') : readWords text = readWords text' := by
  have htrim := h.trimStart
  have hsub : trimStart text ⊆ text := (trimStart_suffix text).subset
  have hlength := length_trimStart_le text
  rw [readWords_eq text, readWords_eq text']
  cases hleft : trimStart text with
  | nil =>
    rw [hleft] at htrim
    generalize trimStart text' = right at htrim ⊢
    cases htrim
    rfl
  | cons c rest =>
    rw [hleft] at htrim hsub hlength
    obtain ⟨rest', hright, hrest⟩ := htrim.exists_cons (trimStart_head_not_blank hleft)
    rw [hright]
    have hword := sameReading_readWord (hquote c (hsub (by simp)))
      (fun d hd => hquote d (hsub (by simp [hd]))) hrest
    dsimp only
    cases hread : readWord c rest with
    | error fault =>
      rw [hread] at hword
      generalize readWord c rest' = read' at hword ⊢
      cases hword
      rfl
    | ok read =>
      obtain ⟨word, after⟩ := read
      have hshorter := length_readWord hread
      rw [hread] at hword
      generalize readWord c rest' = read' at hword ⊢
      cases hword with
      | ok _ hquoteAfter hafter =>
        have hless : after.length < text.length := by
          simp only [List.length_cons] at hlength
          omega
        have hlater := readWords_respaced after hquoteAfter hafter
        simp only [hlater]
termination_by text.length

/-- An expression without quotes is the same, whatever blanks stand between its words. -/
theorem ofBody_respaced (hquote : Unquoted text) (h : Respaced text text') :
    ofBody text = ofBody text' := by
  rw [ofBody, ofBody, read, read, readWords_respaced text hquote h]

end Expression

/-! ### What a window says -/

/-- An `else` that is followed by a blank is followed by a space. -/
def SpacedElse (body : List Char) : Prop :=
  ∀ c, "else".toList ++ [c] <+: body → isBlank c = true → c = ' '

namespace Respaced

variable {text text' : List Char}

/-- What begins with characters that are not blank goes on beginning with them. -/
theorem exists_append (h : Respaced text text') :
    ∀ {first rest : List Char}, (∀ c ∈ first, isBlank c = false) → text = first ++ rest →
      ∃ rest', text' = first ++ rest' ∧ Respaced rest rest' := by
  intro first
  induction first generalizing text text' with
  | nil => rintro rest _ rfl; exact ⟨_, rfl, h⟩
  | cons c first ih =>
    rintro rest hfirst rfl
    obtain ⟨tail', rfl, htail⟩ := h.exists_cons (hfirst c (by simp))
    obtain ⟨rest', rfl, hrest⟩ := ih htail (fun d hd => hfirst d (by simp [hd])) rfl
    exact ⟨rest', rfl, hrest⟩

theorem startsWith_of_startsWith {sought : String} (hsought : ∀ c ∈ sought.toList, isBlank c = false)
    (h : Respaced text text') (hstart : startsWith sought text = true) :
    startsWith sought text' = true := by
  obtain ⟨rest, hrest⟩ := List.isPrefixOf_iff_prefix.mp hstart
  obtain ⟨rest', rfl, -⟩ := h.exists_append hsought hrest.symm
  exact List.isPrefixOf_iff_prefix.mpr (List.prefix_append _ _)

/-- Both begin with some characters that are not blank, or neither does. -/
theorem startsWith_eq {sought : String} (hsought : ∀ c ∈ sought.toList, isBlank c = false)
    (h : Respaced text text') : startsWith sought text = startsWith sought text' :=
  Bool.eq_iff_iff.mpr ⟨h.startsWith_of_startsWith hsought, h.symm.startsWith_of_startsWith hsought⟩

theorem not_isBlank_else : ∀ c ∈ "else".toList, isBlank c = false := by
  simp [isBlank]

theorem startsWith_else_of_startsWith (h : Respaced text text') (hspaced : SpacedElse text')
    (hstart : startsWith "else " text = true) : startsWith "else " text' = true := by
  obtain ⟨rest, hrest⟩ := List.isPrefixOf_iff_prefix.mp hstart
  have htext : text = "else".toList ++ ' ' :: rest := hrest.symm
  obtain ⟨rest', rfl, hrest'⟩ := h.exists_append not_isBlank_else htext
  obtain ⟨c, tail, rfl, hc⟩ : ∃ c tail, rest' = c :: tail ∧ isBlank c = true := by
    cases hrest' with
    | cons => exact ⟨' ', _, rfl, by decide⟩
    | blanks hb hb' => exact ⟨_, _, rfl, hb'⟩
  obtain rfl := hspaced c ⟨tail, by simp⟩ hc
  exact List.isPrefixOf_iff_prefix.mpr ⟨tail, rfl⟩

/-- Both are an `else` with something after it, or neither is. -/
theorem startsWith_else (h : Respaced text text') (hspaced : SpacedElse text)
    (hspaced' : SpacedElse text') : startsWith "else " text = startsWith "else " text' :=
  Bool.eq_iff_iff.mpr
    ⟨h.startsWith_else_of_startsWith hspaced', h.symm.startsWith_else_of_startsWith hspaced⟩

/-- A text that is not blank anywhere is only respaced to itself. -/
theorem eq_iff (h : Respaced text text') {word : List Char} (hword : ∀ c ∈ word, isBlank c = false) :
    text = word ↔ text' = word := by
  rcases h.eq_or_blank with rfl | ⟨⟨c, hc, hblank⟩, ⟨c', hc', hblank'⟩⟩
  · exact Iff.rfl
  · constructor
    · rintro rfl
      simp [hword c hc] at hblank
    · rintro rfl
      simp [hword c' hc'] at hblank'

end Respaced

/-- What is said comes to the same: it is the same, or it is a closing under a name that no block
has. -/
inductive SaidAlike (said said' : Except DirectiveFault (List Event)) : Prop
  | same (h : said = said')
  | closing {name name' : String} (hsaid : said = .ok [.closing name])
    (hsaid' : said' = .ok [.closing name']) (hname : ∃ c ∈ name.toList, isBlank c = true)
    (hname' : ∃ c ∈ name'.toList, isBlank c = true)

/-- None of the characters that tell what a window is, is a blank. -/
theorem not_isBlank_sigil : ∀ c ∈ Window.sigils, isBlank c = false := by
  simp [Window.sigils, isBlank]

theorem SaidAlike.refl (said : Except DirectiveFault (List Event)) : SaidAlike said said :=
  .same rfl

namespace Window

variable {body body' : List Char}

/-- The name of a closing is the same, or has blanks both times. -/
theorem saidAlike_closing (h : Respaced body body') :
    SaidAlike (plainEvents ('/' :: body)) (plainEvents ('/' :: body')) := by
  rcases h.trim.eq_or_blank with heq | ⟨hblank, hblank'⟩
  · exact .same (by simp only [plainEvents, heq])
  · exact .closing rfl rfl (by simpa using hblank) (by simpa using hblank')

/-- **What stands between two braces comes to the same**, whatever blanks stand in it. -/
theorem saidAlike_plainEvents (hquote : Unquoted body) (helse : SpacedElse body)
    (helse' : SpacedElse body') (h : Respaced body body') :
    SaidAlike (plainEvents body) (plainEvents body') := by
  by_cases hmark : ∃ c ∈ body.head?, c ∈ sigils
  · obtain ⟨c, hc, hmark⟩ := hmark
    obtain ⟨rest, rfl⟩ := List.head?_eq_some_iff.mp hc
    obtain ⟨rest', rfl, hrest⟩ := h.exists_cons (not_isBlank_sigil c hmark)
    have hbody : Expression.ofBody rest = Expression.ofBody rest' :=
      Expression.ofBody_respaced (fun d hd => hquote d (by simp [hd])) hrest
    simp only [sigils, List.mem_cons, List.not_mem_nil, or_false] at hmark
    rcases hmark with rfl | rfl | rfl | rfl | rfl | rfl
    · exact .refl _
    · exact .same (by simp only [plainEvents, hbody])
    · exact .same (by simp only [plainEvents, hbody, hrest.all_isBlank])
    · exact saidAlike_closing hrest
    · exact .refl _
    · exact .same (by simp only [plainEvents, Event.ofBody, hbody])
  · have hhead : ∀ c ∈ body.head?, c ∉ sigils := fun c hc hmem => hmark ⟨c, hc, hmem⟩
    have hhead' : ∀ c ∈ body'.head?, c ∉ sigils := fun c hc hmem =>
      hhead c (h.mem_head? (not_isBlank_sigil c hmem) hc) hmem
    have hword := h.eq_iff Respaced.not_isBlank_else
    have hbody : Event.ofBody true body = Event.ofBody true body' := by
      rw [Event.ofBody, Event.ofBody, Expression.ofBody_respaced hquote h]
    refine .same ?_
    rw [plainEvents_of_head hhead, plainEvents_of_head hhead', h.startsWith_else helse helse',
      hbody]
    simp only [hword]

/-- The window with another body. -/
def withBody (w : Window) (body : List Char) : Window :=
  { w with body }

/-- **What a window says comes to the same**, whatever blanks stand in it. -/
theorem saidAlike_events {w : Window} (hquote : Unquoted w.body)
    (helse : w.triple = false → SpacedElse (trim w.body) ∧ SpacedElse (trim body'))
    (h : Respaced w.body body') : SaidAlike w.events (w.withBody body').events := by
  have hquote' : Unquoted (trim w.body) := fun c hc =>
    hquote c ((trimStart_suffix _).subset ((trimEnd_isPrefixOf _).subset hc))
  cases htriple : w.triple with
  | true =>
    refine .same ?_
    simp only [events, withBody, htriple, if_true, Event.ofBody,
      Expression.ofBody_respaced hquote' h.trim]
  | false =>
    simp only [events, withBody, htriple, Bool.false_eq_true, if_false]
    exact saidAlike_plainEvents hquote' (helse htriple).1 (helse htriple).2 h.trim

end Window

/-! ### Single spaces -/

/-- A run of blanks made a single space; any other run stays. -/
def squeezeRun (run : List Char) : List Char :=
  if run.all isBlank then [' '] else run

/-- A text with each run of blanks in it, as long as it is, made a single space. -/
def squeeze (text : List Char) : List Char :=
  (text.splitBy fun c d => isBlank c == isBlank d).flatMap squeezeRun

example : squeeze "a \t\nb  ".toList = "a b ".toList := by decide

/-- A run is all blank or has no blank. -/
theorem all_isBlank_or_none {text run : List Char}
    (h : run ∈ text.splitBy fun c d => isBlank c == isBlank d) :
    (∀ c ∈ run, isBlank c = true) ∨ ∀ c ∈ run, isBlank c = false := by
  have hchain := List.isChain_of_mem_splitBy h
  simp only [beq_iff_eq] at hchain
  have hpairs : run.Pairwise fun c d => isBlank c = isBlank d := by
    have : IsTrans Char fun c d => isBlank c = isBlank d := ⟨fun _ _ _ => Eq.trans⟩
    exact List.isChain_iff_pairwise.mp hchain
  cases run with
  | nil => exact .inl (by simp)
  | cons c rest =>
    have hrest := (List.pairwise_cons.mp hpairs).1
    cases hc : isBlank c with
    | true => exact .inl (List.forall_mem_cons.mpr ⟨hc, fun d hd => (hrest d hd).symm.trans hc⟩)
    | false => exact .inr (List.forall_mem_cons.mpr ⟨hc, fun d hd => (hrest d hd).symm.trans hc⟩)

theorem respaced_squeezeRun {run : List Char} (hne : run ≠ []) : Respaced run (squeezeRun run) := by
  unfold squeezeRun
  split
  · rename_i hall
    exact .of_blanks hne (by simp) (List.all_eq_true.mp hall) (by simp [isBlank])
  · exact .refl run

/-- **To squeeze a text is to respace it.** -/
theorem respaced_squeeze (text : List Char) : Respaced text (squeeze text) := by
  have hruns : ∀ runs : List (List Char), (∀ run ∈ runs, run ≠ []) →
      Respaced runs.flatten (runs.flatMap squeezeRun) := by
    intro runs
    induction runs with
    | nil => intro _; exact .nil
    | cons run rest ih =>
      intro hne
      rw [List.flatten_cons, List.flatMap_cons]
      exact (respaced_squeezeRun (hne run (by simp))).append
        (ih fun other hmem => hne other (by simp [hmem]))
  have hall := hruns (text.splitBy fun c d => isBlank c == isBlank d) fun _ =>
    List.ne_nil_of_mem_splitBy
  rwa [List.flatten_splitBy] at hall

/-- A squeezed text has no blanks but spaces. -/
theorem eq_space_of_mem_squeeze {text : List Char} {c : Char} (h : c ∈ squeeze text)
    (hblank : isBlank c = true) : c = ' ' := by
  obtain ⟨run, hrun, hc⟩ := List.mem_flatMap.mp h
  unfold squeezeRun at hc
  split at hc
  · simpa using hc
  · rename_i hall
    rcases all_isBlank_or_none hrun with hblanks | hnone
    · exact absurd (List.all_eq_true.mpr hblanks) hall
    · simp [hnone c hc] at hblank

end TemplateTree
