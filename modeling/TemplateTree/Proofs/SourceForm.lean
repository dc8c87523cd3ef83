/-
An expression in place, written out again.

An expression that stands in place in a program is written between the delimiters of its kind, and
mostly that is source for it again.  It was read from the body of a window, so as it is written it
holds no delimiter that closes the window.  And its first character is none that would make it
something else, or the body it was read from would have been that.

What is written touches the delimiters, though, and the body need not have.  So a tilde or a brace
at an end of it is taken for a part of the delimiter there, and a path that is `else` for the step
to the other part of a block.  `Mustache.SetApart` rules that out, and nothing less will do.  If the
expression comes back from what is written, then from one window, whose body weighs as much; so that
window is all that is written, and a body touches no part of a delimiter.
-/
import TemplateTree.Proofs.Delimited
import TemplateTree.Proofs.Origins
import TemplateTree.Proofs.Weights

namespace TemplateTree

namespace Expression

theorem Word.ReadFrom.append_of_bare {name : String} {text rest : List Char}
    (h : Word.ReadFrom ⟨none, .bare name⟩ text rest) : name.toList ++ rest = text := by
  cases h with
  | positional h =>
    cases h with
    | bare content => rw [String.toList_ofList]

/-- A row that begins with a name was read from a text that does. -/
theorem WordsFrom.head?_trimStart {name : String} {words : List Word} {text : List Char}
    (h : WordsFrom (⟨none, .bare name⟩ :: words) text) (hname : IsBare name.toList) :
    (trimStart text).head? = name.toList.head? := by
  obtain ⟨c, tail, hc, hblank⟩ := hname.begins_not_blank
  cases h with
  | @cons blanks hblanks w text rest hw words h =>
    rw [← hw.append_of_bare, hc, trimStart, List.dropWhile_append_of_pos hblanks, List.cons_append,
      List.dropWhile_cons_of_neg (by simp [hblank])]
    rfl

theorem head?_text {e : Expression} (h : IsBare e.path.toList) :
    e.text.toList.head? = e.path.toList.head? := by
  obtain ⟨c, tail, hpath, -⟩ := h.begins_not_blank
  obtain ⟨rest, htext, -⟩ := e.exists_text_eq
  rw [htext, hpath, List.cons_append, List.head?_cons, List.head?_cons]

theorem isBareValue_getLast {content : List Char} (h : IsBareValue content) :
    ∃ c ∈ content.getLast?, isBlank c = false := by
  obtain ⟨c, hc, -⟩ := h.begins
  have hne : content ≠ [] := by
    rintro rfl
    cases hc
  exact ⟨_, List.getLast?_eq_some_getLast hne, h.goesOn _ (List.getLast_mem hne)⟩

/-- A word of the form does not end with a blank. -/
theorem spelling_ends_of_formed {w : Word} (h : w.Formed) :
    ∃ c ∈ w.spelling.getLast?, isBlank c = false := by
  have hquoted : ∀ content, ∃ c ∈ (Piece.quoted content).spelling.getLast?, isBlank c = false :=
    fun content => ⟨'\"', Piece.getLast?_quoted content, by decide⟩
  match w, h with
  | ⟨none, .bare content⟩, h => exact isBareValue_getLast h.isBareValue
  | ⟨none, .quoted content⟩, _ => exact hquoted content
  | ⟨some key, .bare content⟩, h =>
    obtain ⟨c, hc, hblank⟩ := isBareValue_getLast h.2
    exact ⟨c, Word.mem_getLast?_named hc, hblank⟩
  | ⟨some key, .quoted content⟩, _ =>
    obtain ⟨c, hc, hblank⟩ := hquoted content
    exact ⟨c, Word.mem_getLast?_named hc, hblank⟩

section Read

variable {text : List Char} {e : Expression} (h : read text = .ok e)
  (hnumber : ∀ value, .number value ∉ e.values)

include h hnumber

/-- An expression begins with the character that its text begins with. -/
theorem head?_of_read : (trimStart text).head? = e.text.toList.head? := by
  have hpath := isBare_path h
  rw [head?_text hpath]
  exact (wordsFrom_of_readWords (words_of_read h hnumber).1).head?_trimStart hpath

/-- There is nothing to trim where an expression is written. -/
theorem trim_text : trim e.text.toList = e.text.toList := by
  have hpath := isBare_path h
  obtain ⟨c, tail, hc, hblank⟩ := hpath.begins_not_blank
  have hne : e.path ≠ "" := by
    intro hempty
    rw [hempty] at hc
    cases hc
  obtain ⟨d, hd, hlast⟩ := ends_of_words (fun w hw =>
    spelling_ends_of_formed (formed_of_readWords (words_of_read h hnumber).1 w hw)) hne
  refine trim_of_ends ?_ ?_
  · rw [head?_text hpath, hc]
    simp [hblank]
  · intro d' hd'
    rwa [Option.mem_unique hd' hd]

end Read

end Expression

/-! ### Set apart -/

/-- An expression in place whose written form is set apart from the delimiters: it does not begin or
end in what would be taken for a part of one, and its path is not that of the step to the other part
of a block. -/
structure Mustache.SetApart (m : Mustache) : Prop where
  begins : ∀ c ∈ m.expression.text.toList.head?, c ≠ '~' ∧ (m.escaped = true → c ≠ '\x7b')
  ends : ∀ c ∈ m.expression.text.toList.getLast?, c ≠ '~' ∧ c ≠ '\x7d'
  notElse : m.escaped = true → m.expression.path ≠ "else"

/-- A text that an expression in place was read from, in the body of a window. -/
structure Mustache.ReadIn (m : Mustache) (w : Window) (text : List Char) : Prop where
  read : Expression.read text = .ok m.expression
  inside : text <:+: w.body
  free : ¬ (Window.closing !m.escaped).toList <:+: text
  double : m.escaped = true → w.triple = false
  begins : m.escaped = true → ∀ c ∈ (trimStart text).head?, c ∉ Window.sigils

/-- What a window says of an expression in place is read in its body. -/
theorem Window.Says.exists_readIn {w : Window} {m : Mustache} (h : w.Says [.mustache m])
    (hw : w.Reads) : ∃ text, m.ReadIn w text := by
  have hfree : (∀ c ∈ (trim w.body).head?, c ≠ '!') ∨ w.triple = true →
      ¬ (Window.closing w.triple).toList <:+: trim w.body := by
    intro hcomment hsub
    refine Window.not_closing_body hw ?_ (hsub.trans (isInfix_trim _))
    intro hdouble hmark
    rcases hcomment with hnot | htriple
    · exact hnot '!' (mem_head?_trim hmark (by decide)) rfl
    · simp [hdouble] at htriple
  cases h with
  | @triple e htriple hread =>
    have htriple' := hfree (.inr htriple)
    rw [htriple] at htriple'
    exact ⟨trim w.body, hread, isInfix_trim _, htriple', nofun, nofun⟩
  | @ampersand rest e hdouble hbody hread =>
    have hdouble' := hfree (.inl (by simp [hbody]))
    rw [hdouble] at hdouble'
    have hrest : rest <:+: trim w.body := hbody ▸ (List.suffix_cons '&' rest).isInfix
    have hpart : (Window.closing false).toList <:+: (Window.closing true).toList := by decide
    exact ⟨rest, hread, hrest.trans (isInfix_trim _),
      fun hsub => hdouble' ((hpart.trans hsub).trans hrest), nofun, nofun⟩
  | @plain e hdouble hhead helse hchained hread =>
    have hdouble' := hfree (.inl fun c hc heq => hhead c hc (by simp [heq, sigils]))
    rw [hdouble] at hdouble'
    refine ⟨trim w.body, hread, isInfix_trim _, hdouble', fun _ => hdouble, fun _ => ?_⟩
    rwa [trimStart_trim]

/-- **An expression in place is legible**, if it is set apart from its delimiters. -/
theorem Event.legible_of_setApart {w : Window} {m : Mustache} (hw : w.Reads)
    (h : w.Says [.mustache m]) (hnumber : ∀ value, .number value ∉ m.expression.values)
    (hstrings : ∀ content, .string content ∈ m.expression.values → Unmarked content.toList)
    (hapart : m.SetApart) : Legible (.mustache m) := by
  obtain ⟨text, htext⟩ := h.exists_readIn hw
  have hhead := htext.begins
  rw [Expression.head?_of_read htext.read hnumber] at hhead
  have hback := Expression.read_text_of_unmarked htext.read hnumber hstrings
  have hpath := Expression.isBare_path htext.read
  refine legible_of_window ⟨⟨rfl, rfl⟩, ?_, hapart.ends, ?_⟩
    (Expression.trim_text htext.read hnumber) ?_ hhead (fun hescaped heq => ?_)
  · obtain ⟨c, tail, hc, -⟩ := hpath.begins_not_blank
    have hfirst : c ∈ m.expression.text.toList.head? := by
      rw [Expression.head?_text hpath, hc]
      rfl
    refine ⟨c, hfirst, (hapart.begins c hfirst).1, fun hdouble => ?_⟩
    have hescaped : m.escaped = true := by simpa [Mustache.window] using hdouble
    have hmark := hhead hescaped c hfirst
    refine ⟨(hapart.begins c hfirst).2 hescaped, ?_⟩
    rintro rfl
    simp [Window.sigils] at hmark
  · exact Expression.not_closing_text htext.read hnumber htext.free
  · rw [Expression.ofBody, hback]
  · rw [Expression.takeWhile_text hpath.isBareValue.goesOn] at heq
    exact hapart.notElse hescaped (String.toList_inj.mp heq)

theorem Statement.eq_nil_of_eventsOf {program : Program} (h : eventsOf program = []) :
    program = [] := by
  cases program with
  | nil => rfl
  | cons statement rest => cases statement <;> simp [eventsOf, events] at h

/-- A program that is one expression in place when it is laid out is that expression. -/
theorem Statement.eq_of_eventsOf {program : Program} {m : Mustache}
    (h : eventsOf program = [.mustache m]) : program = [.mustache m] := by
  cases program with
  | nil => simp [eventsOf] at h
  | cons statement rest =>
    cases statement with
    | mustache other =>
      obtain ⟨hsame, hrest⟩ : other = m ∧ eventsOf rest = [] := by simpa [eventsOf, events] using h
      rw [hsame, eq_nil_of_eventsOf hrest]
    | content text => simp [eventsOf, events] at h
    | block expression body inverse => simp [eventsOf, events] at h

/-- A legible expression in place, written out, is the source of a program of its own. -/
theorem parseDirectives_text {m : Mustache} (h : (Event.mustache m).Legible) (limit : Nat) :
    parseDirectives m.text limit = .ok [.mustache m] := by
  have hshape : [Event.mustache m].foldlM (Shape.take limit) [] = some [] := rfl
  obtain ⟨program, hprogram, hevents⟩ :=
    exists_program_of_spelled (by simpa using h) hshape
  have htext : Event.spelled [.mustache m] = m.text := by
    simp [Event.spelled, Event.spelling]
  rw [← htext, hprogram, Statement.eq_of_eventsOf hevents]

/-! ### Written out and cut -/

namespace Window

variable {heavy : Nat}

theorem weigh_spelling (w : Window) :
    weigh heavy w.spelling = weigh heavy (opening w.triple).toList +
      weigh heavy (tilde w.trimLeft) + weigh heavy w.body + weigh heavy (tilde w.trimRight) +
      weigh heavy (closing w.triple).toList := by
  simp only [spelling, weigh_append]

/-- The delimiters of a window are four braces or six. -/
theorem weigh_delimiters (triple : Bool) :
    4 ≤ weigh heavy (opening triple).toList + weigh heavy (closing triple).toList ∧
      weigh heavy (opening triple).toList + weigh heavy (closing triple).toList ≤ 6 := by
  have hweigh : weigh heavy (opening triple).toList + weigh heavy (closing triple).toList =
      if triple then 6 else 4 := by
    cases triple <;> rfl
  rw [hweigh]
  split <;> omega

/-- A tilde that weighs nothing is none. -/
theorem eq_false_of_weigh_tilde {present : Bool} (h : weigh heavy (tilde present) = 0) :
    present = false := by
  cases present with
  | false => rfl
  | true => simp [tilde, weigh, weight, isBlank] at h

/-- Windows that are written alike, with as many braces and tildes, are the same. -/
theorem eq_of_spelling {w w' : Window} (htriple : w.triple = w'.triple)
    (hleft : w.trimLeft = w'.trimLeft) (hright : w.trimRight = w'.trimRight)
    (h : w.spelling = w'.spelling) : w = w' := by
  obtain ⟨triple, trimLeft, body, trimRight⟩ := w
  obtain ⟨triple', trimLeft', body', trimRight'⟩ := w'
  cases htriple
  cases hleft
  cases hright
  simpa [spelling] using h

theorem getLast?_spelling (w : Window) : w.spelling.getLast? = some '\x7d' := by
  rw [spelling, List.getLast?_append_of_ne_nil _ (closing_ne_nil _)]
  cases w.triple <;> rfl

theorem isInfix_body (w : Window) : w.body <:+: w.spelling :=
  ⟨(opening w.triple).toList ++ tilde w.trimLeft, tilde w.trimRight ++ (closing w.triple).toList,
    by simp [spelling]⟩

end Window

/-- Where a window stands in a source.  Before it is another window, or a gap, and there is none
where the source begins with one. -/
theorem Cut.exists_eq_append {heavy : Nat} {here : Location} {trimmed : Bool} {text : List Char}
    {s : Segment} (h : s ∈ (ofText here trimmed text).segments) :
    ∃ before after, text = before ++ (s.window.spelling ++ after) ∧
      (startsWith openBraces text = true → before = [] ∨ 4 ≤ weigh heavy before) := by
  fun_induction ofText here trimmed text with
  | case1 => cases h
  | case2 => cases h
  | case3 here trimmed text gap opened hs opener window left hw later ih =>
    have hopened : openBraces.toList ++ opened.drop 2 = opened :=
      Window.drop_of_startsWith (splitWhere_found hs)
    have htext : text = gap ++ (window.spelling ++ left) := by
      rw [← splitWhere_append hs, Window.spelling_append hw, hopened]
    rcases List.mem_cons.mp h with rfl | hlater
    · refine ⟨gap, left, htext, fun hstart => .inl ?_⟩
      rw [splitWhere_of_found hstart] at hs
      exact (Prod.mk.inj (Option.some.inj hs)).1.symm
    · obtain ⟨before, after, hleft, -⟩ := ih hlater
      refine ⟨gap ++ (window.spelling ++ before), after, ?_, fun _ => .inr ?_⟩
      · rw [htext, hleft]
        simp
      · have hfour := (@Window.weigh_delimiters heavy window.triple).1
        rw [weigh_append, weigh_append, Window.weigh_spelling]
        omega

namespace Mustache

variable {m : Mustache}

theorem weigh_window {heavy : Nat} (m : Mustache) :
    weigh heavy m.text.toList = weigh heavy (Window.opening m.window.triple).toList +
      weigh heavy m.expression.text.toList + weigh heavy (Window.closing m.window.triple).toList := by
  rw [← spelling_window, Window.weigh_spelling]
  rfl

/-- Where an expression in place is written out, three braces are read if it has three. -/
theorem triple_of_reads {w : Window} {after : List Char} (hw : w.Reads)
    (htext : m.text.toList = w.spelling ++ after) (hescaped : m.escaped = false) :
    w.triple = true := by
  have hread := hw after
  rw [← htext, ← m.spelling_window, ← List.append_nil m.window.spelling,
    Window.drop_spelling] at hread
  simp only [window, hescaped, Bool.not_false] at hread
  exact Window.triple_of_read? hread

/-- A window of an expression in place, where it is written out, is all of it if what it holds
weighs as much. -/
theorem eq_window_of_weigh {heavy : Nat} {w : Window} {before after : List Char} (hw : w.Reads)
    (htext : m.text.toList = before ++ (w.spelling ++ after))
    (hbefore : before = [] ∨ 4 ≤ weigh heavy before)
    (hdouble : m.escaped = true → w.triple = false)
    (hweigh : weigh heavy m.expression.text.toList ≤ weigh heavy w.body) : w = m.window := by
  have hall : weigh heavy m.text.toList =
      weigh heavy before + (weigh heavy w.spelling + weigh heavy after) := by
    rw [htext, weigh_append, weigh_append]
  rw [weigh_window, Window.weigh_spelling] at hall
  obtain rfl : before = [] := by
    have hfour := (@Window.weigh_delimiters heavy w.triple).1
    have hsix := (@Window.weigh_delimiters heavy m.window.triple).2
    exact hbefore.resolve_right (by omega)
  rw [List.nil_append] at htext
  have htriple : w.triple = m.window.triple := by
    cases hescaped : m.escaped with
    | true => simp [window, hescaped, hdouble hescaped]
    | false => simp [window, hescaped, triple_of_reads hw htext hescaped]
  rw [htriple, weigh_nil] at hall
  have hleft : w.trimLeft = false := @Window.eq_false_of_weigh_tilde heavy _ (by omega)
  have hright : w.trimRight = false := @Window.eq_false_of_weigh_tilde heavy _ (by omega)
  have hafter : after = [] := by
    by_contra hne
    have hlast := m.window.getLast?_spelling
    rw [m.spelling_window, htext, List.getLast?_append_of_ne_nil _ hne] at hlast
    have hblank := @blank_of_weigh heavy after (by omega) _ (List.mem_of_getLast? hlast)
    simp [isBlank] at hblank
  refine Window.eq_of_spelling htriple hleft hright ?_
  rw [m.spelling_window, htext, hafter, List.append_nil]

/-- **The only window that says an expression in place, where it is written out, is all of it.** -/
theorem window_of_parseDirectives (hnumber : ∀ value, .number value ∉ m.expression.values)
    (hstrings : ∀ content, .string content ∈ m.expression.values → '\\' ∉ content.toList)
    {limit : Nat} (h : parseDirectives m.text limit = .ok [.mustache m]) :
    m.window.Reads ∧ m.window.Says [.mustache m] := by
  have hin : .mustache m ∈ Statement.eventsOf [.mustache m] := by
    simp [Statement.eventsOf, Statement.events]
  obtain ⟨s, hs, hsays⟩ := exists_window_of_mem_program h hin
  have hreads := Cut.reads_of_mem hs
  obtain ⟨text, hreadIn⟩ := hsays.exists_readIn hreads
  obtain ⟨before, after, htext, hbefore⟩ := @Cut.exists_eq_append m.text.toList.length _ _ _ _ hs
  have hbody : s.window.body <:+: m.text.toList := by
    rw [htext]
    exact s.window.isInfix_body.trans ⟨before, after, by simp⟩
  have hstart : startsWith openBraces m.text.toList = true := by
    have hopening := m.window.startsWith_spelling []
    rwa [List.append_nil, m.spelling_window] at hopening
  have hweigh := Expression.weigh_text_le hreadIn.read hnumber hstrings
    (hreadIn.inside.trans hbody).length_le
  have hsame : s.window = m.window :=
    eq_window_of_weigh hreads htext (hbefore hstart) hreadIn.double
      (hweigh.trans (weigh_le_of_isInfix hreadIn.inside))
  exact hsame ▸ ⟨hreads, hsays⟩

/-- What is read in a window of two braces is none of the forms of an `else`. -/
theorem not_else_of_says {w : Window} (h : w.Says [.mustache m]) (hescaped : m.escaped = true) :
    trim w.body ≠ "else".toList ∧ startsWith "else " (trim w.body) = false := by
  cases h with
  | triple => cases hescaped
  | ampersand => cases hescaped
  | plain _ _ helse hchained => exact ⟨helse, hchained⟩

/-- **What is a window as it is written is set apart.** -/
theorem setApart_of_says (hw : m.window.Reads) (h : m.window.Says [.mustache m])
    (hnumber : ∀ value, .number value ∉ m.expression.values) : m.SetApart := by
  obtain ⟨text, hreadIn⟩ := h.exists_readIn hw
  have hinner : m.window.inner = m.expression.text.toList := List.append_nil _
  refine ⟨fun c hc => ?_, ?_, fun hescaped helse => ?_⟩
  · have hhead := Window.head?_inner hw rfl c
    rw [hinner] at hhead
    obtain ⟨hne, hbrace⟩ := hhead (by simp [List.head?_append, Option.mem_def.mp hc])
    exact ⟨hne, fun hescaped => hbrace (by simp [window, hescaped])⟩
  · refine Window.getLast?_body hw (fun hnotTriple hmark => ?_) rfl
    have hescaped : m.escaped = true := by simpa [window] using hnotTriple
    have hsigils := hreadIn.begins hescaped
    rw [Expression.head?_of_read hreadIn.read hnumber] at hsigils
    exact hsigils '!' hmark (by simp [Window.sigils])
  · obtain ⟨hnot, hchained⟩ := not_else_of_says h hescaped
    have htrim : trim m.window.body = m.expression.text.toList :=
      Expression.trim_text hreadIn.read hnumber
    obtain ⟨rest, htext, hspace⟩ := m.expression.exists_text_eq
    rw [htrim, htext, helse] at hnot hchained
    cases rest with
    | nil => exact hnot (List.append_nil _)
    | cons c more =>
      rw [hspace c rfl] at hchained
      cases hchained

end Mustache

/-- **What an expression in place is written as is source for it** exactly when it is set apart from
its delimiters, if it has no number and no string with a backslash. -/
theorem parseDirectives_text_iff {source : String} {limit : Nat} {program : Program}
    (h : parseDirectives source limit = .ok program) {m : Mustache}
    (hm : .mustache m ∈ Statement.eventsOf program)
    (hnumber : ∀ value, .number value ∉ m.expression.values)
    (hstrings : ∀ content, .string content ∈ m.expression.values → '\\' ∉ content.toList)
    (limit' : Nat) :
    parseDirectives m.text limit' = .ok [.mustache m] ↔ m.SetApart := by
  constructor
  · intro hback
    obtain ⟨hreads, hsays⟩ := Mustache.window_of_parseDirectives hnumber hstrings hback
    exact Mustache.setApart_of_says hreads hsays hnumber
  · intro hapart
    obtain ⟨s, hs, hsays⟩ := exists_window_of_mem_program h hm
    exact parseDirectives_text (Event.legible_of_setApart (Cut.reads_of_mem hs) hsays hnumber
      (fun content hmem => unmarked_of_not_mem (hstrings content hmem)) hapart) limit'

/-- In a block, in three braces, with blanks and a string. -/
theorem parseDirectives_text_iff_of_block :
    let m : Mustache := ⟨⟨"p", [.string "a b"], [("k", .path "q")]⟩, false⟩
    ∃ source program, parseDirectives source = .ok program ∧
      .mustache m ∈ Statement.eventsOf program ∧
      (∀ value, .number value ∉ m.expression.values) ∧
      (∀ content, .string content ∈ m.expression.values → '\\' ∉ content.toList) ∧
      (parseDirectives m.text = .ok [.mustache m] ↔ m.SetApart) := by
  intro m
  have hprogram :
      parseDirectives "\x7b\x7b#if x\x7d\x7d\x7b\x7b& p 'a b'  k=q \x7d\x7d\x7b\x7b/if\x7d\x7d" =
        .ok [.block ⟨"if", [.path "x"], []⟩ [.mustache m] none] := by
    cbv
  have hm : .mustache m ∈ Statement.eventsOf
      [.block ⟨"if", [.path "x"], []⟩ [.mustache m] none] := by
    simp [Statement.eventsOf, Statement.events]
  have hnumber : ∀ value, .number value ∉ m.expression.values := by
    simp [m, Expression.values]
  have hstrings : ∀ content, .string content ∈ m.expression.values → '\\' ∉ content.toList := by
    simp [m, Expression.values]
  exact ⟨_, _, hprogram, hm, hnumber, hstrings,
    parseDirectives_text_iff hprogram hm hnumber hstrings maxNesting⟩

/-- A space keeps the brace that a path begins with from the delimiter, and it is not written. -/
theorem not_forall_parseDirectives_text :
    ¬ ∀ (source : String) (program : Program) (m : Mustache),
      parseDirectives source = .ok program → .mustache m ∈ Statement.eventsOf program →
        (∀ value, .number value ∉ m.expression.values) →
        (∀ content, .string content ∈ m.expression.values → '\\' ∉ content.toList) →
          parseDirectives m.text = .ok [.mustache m] := by
  intro h
  let m : Mustache := ⟨⟨"\x7bx", [], []⟩, true⟩
  have hprogram : parseDirectives "\x7b\x7b \x7bx\x7d\x7d" = .ok [.mustache m] := by
    cbv
  have hback := h _ _ m hprogram (by simp [Statement.eventsOf, Statement.events])
    (by simp [m, Expression.values]) (by simp [m, Expression.values])
  have hunclosed : parseDirectives "\x7b\x7b\x7bx\x7d\x7d" =
      .error ⟨.unclosedMustache, .start⟩ := by
    cbv
  have htext : m.text = "\x7b\x7b\x7bx\x7d\x7d" := by
    decide
  rw [htext, hunclosed] at hback
  cases hback

end TemplateTree
