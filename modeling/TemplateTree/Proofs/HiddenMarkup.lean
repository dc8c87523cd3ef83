/-
Text that hides markup.

A text of a tree was read as text, but it need not be read as text again.  What makes a
bracket text is that what follows it opens nothing, and what follows it may be the next
bracket, with which a declaration or an end tag without a name begins.  Those leave no token.
So what comes after them is joined to the first bracket, and it was never asked what it would
open there.  In this way a tree without elements may be written out as a template with one.

There is no other way.  `BracketsStop` says of a text that each bracket in it is followed by
nothing, or by what makes it text, and a text like that hides nothing.  All texts of a tree
are like that, except for brackets behind which markup was dropped.  `Watched` is what carries
this through a reading, character by character: if the last text ends in a bracket, then the
text in hand begins with the next bracket, unless markup was dropped in between.
-/
import TemplateTree.Proofs.Failure
import TemplateTree.Proofs.OneCharacter
import TemplateTree.Proofs.Texts

namespace TemplateTree

/-! ### Brackets in a text -/

/-- After a bracket, a character that makes it text. -/
def Stops (rest : List Char) : Prop :=
  ∃ c ∈ rest.head?, goesOnMarkup c = false

/-- Each bracket in a text is followed by nothing or by what makes it text, unless the text
before it excuses it. -/
def BracketsStop (excused : List Char → Prop) (text : List Char) : Prop :=
  ∀ before rest, text = before ++ '<' :: rest → rest = [] ∨ Stops rest ∨ excused before

theorem Stops.append {rest : List Char} (h : Stops rest) (more : List Char) :
    Stops (rest ++ more) := by
  obtain ⟨c, hc, hstops⟩ := h
  obtain ⟨tail, rfl⟩ := List.head?_eq_some_iff.mp hc
  exact ⟨c, rfl, hstops⟩

/-- A bracket alone is read as text. -/
theorem isTextRun_bracket : IsTextRun "<" :=
  ⟨'<', [], rfl, by simp, by simp⟩

/-- In a text that is read as one token there is a bracket only at the beginning, and what comes
next makes it text. -/
theorem IsTextRun.stops {content : String} (h : IsTextRun content) {before rest : List Char}
    (hcontent : content.toList = before ++ '<' :: rest) : rest = [] ∨ Stops rest := by
  obtain ⟨first, others, hfirst, hnone, hsecond⟩ := h
  rw [hfirst] at hcontent
  match before with
  | [] =>
    obtain ⟨rfl, rfl⟩ := List.cons.inj hcontent
    match others with
    | [] => exact .inl rfl
    | second :: more => exact .inr ⟨second, rfl, hsecond rfl second rfl⟩
  | c :: more =>
    obtain ⟨-, rfl⟩ := List.cons.inj hcontent
    exact absurd (by simp) hnone

namespace BracketsStop

variable {excused : List Char → Prop} {text : List Char}

theorem nil : BracketsStop excused [] := by
  intro before rest hnil
  exact absurd hnil.symm (by simp)

theorem tail {c : Char} (h : BracketsStop (fun _ => False) (c :: text)) :
    BracketsStop (fun _ => False) text := by
  intro before rest hsplit
  rcases h (c :: before) rest (by rw [hsplit]; rfl) with hnil | hstops | hfalse
  · exact .inl hnil
  · exact .inr (.inl hstops)
  · exact hfalse.elim

/-- **What is joined is read like its parts**, if a bracket at the end of the first one is excused
or another one follows it. -/
theorem append {content : String} (h : BracketsStop excused text) (hrun : IsTextRun content)
    (hjoin : ∀ before, text = before ++ ['<'] →
      excused before ∨ content.toList.head? = some '<') :
    BracketsStop excused (text ++ content.toList) := by
  intro before rest hsplit
  rcases List.append_eq_append_iff.mp hsplit with ⟨middle, rfl, hcontent⟩ | ⟨middle, rfl, hrest⟩
  · -- the bracket is in the second part
    exact (hrun.stops hcontent).imp_right .inl
  · match middle with
    | [] =>
      have hcontent : content.toList = [] ++ '<' :: rest := hrest.symm
      exact (hrun.stops hcontent).imp_right .inl
    | c :: more =>
      obtain ⟨rfl, rfl⟩ := List.cons.inj hrest
      rcases h before more rfl with rfl | hstops | hexcused
      · rcases hjoin before rfl with hexcused | hhead
        · exact .inr (.inr hexcused)
        · exact .inr (.inl ⟨'<', by simpa using hhead, by decide⟩)
      · exact .inr (.inl (hstops.append _))
      · exact .inr (.inr hexcused)

end BracketsStop

/-- **A text whose brackets stop hides no markup**: it is read as texts only. -/
theorem Lexer.read_of_bracketsStop :
    ∀ (text : List Char) {pending : Option Token}, BracketsStop (fun _ => False) text →
      (∀ token ∈ pending, ∃ content, token = .text content) →
      ∀ token ∈ (read ⟨.data, pending, []⟩ text).1, ∃ content, token = .text content := by
  intro text
  induction text with
  | nil =>
    intro pending _ _ token hmem
    rw [passes_nil] at hmem
    cases hmem
  | cons c rest ih =>
    intro pending h hpending token hmem
    rw [← List.singleton_append, read_append] at hmem
    by_cases hc : c = '<'
    · have hturn : Turn.take .data pending c = Turn.complete .tagOpen pending := if_pos hc
      rw [read_singleton (by decide) pending (by rw [hturn]; rfl), hturn] at hmem
      rcases List.mem_append.mp hmem with hfirst | hlater
      · exact hpending token (Option.mem_toList.mp hfirst)
      · -- after the bracket comes nothing, or what makes it text
        rcases h [] rest (by rw [hc]; rfl) with rfl | ⟨second, hsecond, hstops⟩ | hfalse
        · have hnone : read ⟨.tagOpen, none, []⟩ [] = ([], ⟨.tagOpen, none, []⟩) := passes_nil _ _
          simp [Turn.complete, hnone] at hlater
        · obtain ⟨more, rfl⟩ := List.head?_eq_some_iff.mp hsecond
          simp only [Turn.complete, read_of_opensNothing hstops] at hlater
          exact ih h.tail (by simp) token hlater
        · exact hfalse.elim
    · have hturn : Turn.take .data pending c = Turn.goTo .data (Turn.addText c pending) := if_neg hc
      rw [read_singleton (by decide) pending (by rw [hturn]; rfl), hturn] at hmem
      refine ih h.tail ?_ token (by simpa [Turn.goTo] using hmem)
      intro held hheld
      unfold Turn.addText at hheld
      split at hheld <;> exact ⟨_, (Option.some.inj hheld).symm⟩

/-! ### Watching a reading -/

/-- A text that comes in one piece and is not a bracket alone. -/
def IsHeldText (content : String) : Prop :=
  IsTextRun content ∧ content ≠ "<"

namespace IsHeldText

variable {content : String} {c : Char}

theorem ofChar (hc : c ≠ '<') : IsHeldText c.toString := by
  have htext : c.toString.toList = [c] := String.toList_singleton c
  refine ⟨⟨c, [], htext, by simp, fun hbracket => absurd hbracket hc⟩, ?_⟩
  intro heq
  rw [heq] at htext
  exact hc (List.singleton_inj.mp htext).symm

theorem stray (hc : c ≠ '<') (hopens : goesOnMarkup c = false) : IsHeldText ("<".push c) := by
  have htext : ("<".push c).toList = ['<', c] := by simp
  refine ⟨⟨'<', [c], htext, by simpa using hc.symm, fun _ => by simpa using hopens⟩, ?_⟩
  intro heq
  rw [heq] at htext
  cases htext

theorem push (h : IsHeldText content) (hc : c ≠ '<') : IsHeldText (content.push c) := by
  obtain ⟨⟨first, rest, hcontent, hnone, hsecond⟩, hne⟩ := h
  have htext : (content.push c).toList = first :: (rest ++ [c]) := by simp [hcontent]
  have hrest : first = '<' → rest ≠ [] := by
    rintro rfl rfl
    exact hne (String.toList_injective hcontent)
  refine ⟨⟨first, rest ++ [c], htext, by simp [hnone, hc.symm], ?_⟩, ?_⟩
  · intro hfirst second hmem
    obtain ⟨next, more, rfl⟩ := List.exists_cons_of_ne_nil (hrest hfirst)
    exact hsecond hfirst second hmem
  · intro heq
    rw [heq] at htext
    have hlength := congrArg List.length htext
    simp at hlength

/-- Such a text does not end in a bracket. -/
theorem not_ends (h : IsHeldText content) (last : String) (before : List Char) :
    (last ++ content).toList ≠ before ++ ['<'] := by
  obtain ⟨⟨first, rest, hcontent, hnone, -⟩, hne⟩ := h
  intro hends
  rw [String.toList_append, hcontent] at hends
  rcases List.eq_nil_or_concat' rest with rfl | ⟨front, final, rfl⟩
  · have hfirst : first = '<' := by simpa using (List.append_inj' hends rfl).2
    rw [hfirst] at hcontent
    exact hne (String.toList_injective hcontent)
  · have hsplit : (last.toList ++ first :: front) ++ [final] = before ++ ['<'] := by
      simpa using hends
    have hfinal : final = '<' := by simpa using (List.append_inj' hsplit rfl).2
    exact hnone (by simp [hfinal])

end IsHeldText

/-- Text is in hand only between nodes. -/
theorem LexerState.Fits.not_text {state : LexerState} {kept : List Attribute}
    {pending : Option Token} (h : state.Fits kept pending) (hstate : state ≠ .data)
    (content : String) : pending ≠ some (.text content) := by
  rintro rfl
  cases h with
  | text hne => exact hstate rfl
  | tag htoken htag hfinishes => cases htoken

namespace Assembly

/-- **The texts so far hide nothing**, but for brackets that are excused.  Between nodes, a bracket
that the last text ends in is excused, or the text in hand begins with the next one. -/
structure Watched (excused : List Char → Prop) (a : Assembly) : Prop where
  fits : a.lexer.Fits []
  waits : a.lexer.Waits
  texts : a.stack.Texts fun content => BracketsStop excused content.toList
  held : ∀ content, a.lexer.pending = some (.text content) → IsHeldText content
  joins : a.lexer.state = .data → ∀ before, a.stack.lastText.toList = before ++ ['<'] →
    excused before ∨
      ∃ content, a.lexer.pending = some (.text content) ∧ content.toList.head? = some '<'

variable {a b : Assembly} {excused : List Char → Prop}

/-- The last text with another one behind it. -/
theorem texts_push_text {s : OpenStack}
    (h : s.Texts fun content => BracketsStop excused content.toList) {content : String}
    (hrun : IsTextRun content)
    (hjoin : ∀ before, s.lastText.toList = before ++ ['<'] →
      excused before ∨ content.toList.head? = some '<') :
    (s.push (.text content)).Texts fun content => BracketsStop excused content.toList := by
  have hlast : BracketsStop excused s.lastText.toList :=
    h.row.good_lastText .nil
  refine h.push_text ?_
  rw [String.toList_append]
  exact hlast.append hrun hjoin

/-- A piece of markup leaves the stack as its tokens do. -/
theorem stack_of_feed {text : List Char} (hfeed : a.feed (String.ofList text) = ⟨b, none⟩) :
    ∃ c, a.mergeTokens (a.lexer.read text).1 = ⟨c, none⟩ ∧
      b = ⟨(a.lexer.read text).2, c.stack⟩ := by
  rw [feed_eq_mergeTokens, String.toList_ofList] at hfeed
  match hmerge : a.mergeTokens (a.lexer.read text).1 with
  | ⟨c, some e⟩ =>
    rw [hmerge] at hfeed
    cases hfeed
  | ⟨c, none⟩ =>
    rw [hmerge] at hfeed
    cases hfeed
    exact ⟨c, rfl, rfl⟩

theorem stack_of_mergeTokens_singleton {token : Token} (h : a.mergeTokens [token] = ⟨b, none⟩) :
    a.stack.mergeToken token = .ok b.stack := by
  obtain ⟨c, hmerge, hnil⟩ := Outcome.done_of_andThen h
  obtain ⟨stack, hstack, rfl⟩ := stack_of_ofStack hmerge
  cases hnil
  exact hstack

namespace Watched

theorem fresh (maxDepth : Nat) : (Assembly.fresh maxDepth).Watched excused where
  fits := .data
  waits := .inl rfl
  texts := .empty _ _
  held := by
    intro content hheld
    cases hheld
  joins := by
    intro hdata before hends
    exact absurd hends.symm (by simp [Assembly.fresh, OpenStack.lastText, OpenStack.row, Node.lastText])

/-- In markup, no text is in hand, and nothing is joined yet. -/
theorem of_markup (hfits : a.lexer.Fits []) (hwaits : a.lexer.Waits)
    (htexts : a.stack.Texts fun content => BracketsStop excused content.toList)
    (hstate : a.lexer.state ≠ .data) : a.Watched excused where
  fits := hfits
  waits := hwaits
  texts := htexts
  held content hheld := absurd hheld (hfits.not_text hstate content)
  joins hdata := absurd hdata hstate

/-- Behind a node that is no text nothing is joined. -/
theorem of_ends (hfits : a.lexer.Fits []) (hwaits : a.lexer.Waits)
    (hends : a.stack.TextsEnd fun content => BracketsStop excused content.toList)
    (hheld : ∀ content, a.lexer.pending = some (.text content) → IsHeldText content) :
    a.Watched excused where
  fits := hfits
  waits := hwaits
  texts := hends.toTexts
  held := hheld
  joins hdata before hbracket := by
    rw [hends.ends] at hbracket
    exact absurd hbracket.symm (by simp)

/-- Text in hand goes behind the last one. -/
theorem push_held (h : a.Watched excused) (hdata : a.lexer.state = .data) {content : String}
    (hheld : a.lexer.pending = some (.text content)) :
    (a.stack.push (.text content)).Texts fun content => BracketsStop excused content.toList := by
  refine texts_push_text h.texts (h.held content hheld).1 fun before hends => ?_
  rcases h.joins hdata before hends with hexcused | ⟨held, hsame, hhead⟩
  · exact .inl hexcused
  · cases hheld.symm.trans hsame
    exact .inr hhead

/-- Text in hand goes on. -/
theorem addText {pending : Option Token} {stack : OpenStack}
    (h : Watched excused ⟨⟨.data, pending, []⟩, stack⟩) {c : Char} (hc : c ≠ '<')
    (hfits : Lexer.Fits [] ⟨.data, Turn.addText c pending, []⟩) :
    Watched excused ⟨⟨.data, Turn.addText c pending, []⟩, stack⟩ := by
  have hpending : pending = none ∨ ∃ held, pending = some (.text held) :=
    LexerState.Fits.of_text h.fits (.inl rfl)
  rcases hpending with rfl | ⟨held, rfl⟩
  · refine ⟨hfits, .inl rfl, h.texts, ?_, fun _ before hends => ?_⟩
    · rintro content ⟨⟩
      exact .ofChar hc
    · rcases h.joins rfl before hends with hexcused | ⟨content, hnone, -⟩
      · exact .inl hexcused
      · cases hnone
  · refine ⟨hfits, .inl rfl, h.texts, ?_, fun _ before hends => ?_⟩
    · rintro content ⟨⟩
      exact (h.held held rfl).push hc
    · rcases h.joins rfl before hends with hexcused | ⟨content, hsame, hhead⟩
      · exact .inl hexcused
      · cases hsame
        exact .inr ⟨_, rfl, by simp [List.head?_append, hhead]⟩

/-- **A character keeps a reading watched**, if brackets are excused behind which it ends markup
that leaves no token. -/
theorem feed_char (h : a.Watched excused) {c : Char}
    (hexcused : c = '>' → a.lexer.state = .endTagOpen ∨ a.lexer.state = .markupDeclaration →
      ∀ before, a.stack.lastText.toList = before ++ ['<'] → excused before)
    (hfeed : a.feed (String.ofList [c]) = ⟨b, none⟩) : b.Watched excused := by
  have hfits := (Lexer.fits_read h.fits [c]).1
  have hwaits := a.lexer.waits_read [c]
  obtain ⟨d, hmerge, rfl⟩ := stack_of_feed hfeed
  have hread := Lexer.charRead h.fits h.waits c
  obtain ⟨lexer, stack⟩ := a
  generalize lexer.read [c] = result at hread hmerge hfits hwaits ⊢
  cases hread with
  | text pending hc =>
    cases hmerge
    exact h.addText hc hfits
  | bracket pending hc =>
    refine of_markup hfits hwaits ?_ (by simp)
    match pending with
    | none =>
      cases hmerge
      exact h.texts
    | some token =>
      obtain ⟨content, rfl, -⟩ := LexerState.Fits.of_data h.fits token rfl
      have hstack := stack_of_mergeTokens_singleton hmerge
      show d.stack.Texts _
      rw [← Step.ok.inj hstack]
      exact h.push_held rfl rfl
  | stray hc hopens =>
    cases hmerge
    refine ⟨hfits, hwaits, h.texts, ?_, ?_⟩
    · rintro content ⟨⟩
      exact .stray hc hopens
    · intro hdata before hends
      exact .inr ⟨_, rfl, by simp⟩
  | brackets hc =>
    have hstack := stack_of_mergeTokens_singleton hmerge
    refine of_markup hfits hwaits ?_ (by simp)
    show d.stack.Texts _
    rw [← Step.ok.inj hstack]
    exact texts_push_text h.texts isTextRun_bracket fun _ _ => .inr rfl
  | dropped unread hc hstate =>
    cases hmerge
    exact ⟨hfits, hwaits, h.texts, by simp, fun _ before hends =>
      .inl (hexcused hc hstate before hends)⟩
  | opening hstate hnext =>
    cases hmerge
    exact of_markup hfits hwaits h.texts hnext
  | completes hstate htoken =>
    have hstack := stack_of_mergeTokens_singleton hmerge
    exact of_ends hfits hwaits (h.texts.mergeToken htoken hstack) (by simp)

theorem flushText (h : a.Watched excused) : a.flushText.Watched excused := by
  have hfits := fits_flushText h.fits
  have hwaits := waits_flushText h.waits
  have hmoved := a.textMoved_flushText
  generalize a.flushText = moved at hmoved hfits hwaits ⊢
  cases hmoved with
  | nothing => exact h
  | @text content hdata hheld =>
    refine ⟨hfits, hwaits, h.push_held hdata hheld, by simp, ?_⟩
    intro _ before hends
    rw [OpenStack.lastText_push_text] at hends
    exact absurd hends ((h.held content hheld).not_ends _ before)

theorem places (h : a.Watched excused) {m : Mustache} (hplaces : a.Places m b) :
    b.Watched excused := by
  have hfits := fits_places h.fits hplaces
  have hwaits := waits_places h.waits hplaces
  cases hplaces with
  | node hdata => exact of_ends hfits hwaits (h.texts.push_node (.mustache m) rfl) h.held
  | modifier hstate hpending =>
    refine of_markup hfits hwaits h.texts fun hdata => ?_
    rw [hdata] at hstate
    cases hstate
  | value hstate hpending hlast =>
    refine of_markup hfits hwaits h.texts fun hdata => ?_
    simp only [valueState] at hdata
    split at hdata
    · cases hdata
    · rw [hdata] at hstate
      cases hstate
  | comment hstate hpending => exact of_markup hfits hwaits h.texts (by simp)

/-- **An operation keeps a reading watched**, in the same way. -/
theorem apply (h : a.Watched excused) {operation : Operation} (htoken : operation.token? = none)
    (hexcused : ∀ first second c, operation = .feed (first ++ ">" ++ second) →
      a.feed first = ⟨c, none⟩ → c.lexer.state = .endTagOpen ∨ c.lexer.state = .markupDeclaration →
      ∀ before, c.stack.lastText.toList = before ++ ['<'] → excused before)
    (happly : a.apply operation = ⟨b, none⟩) : b.Watched excused := by
  have hfits := fits_apply h.fits operation
  have hwaits := waits_apply h.waits operation
  rw [happly] at hfits hwaits
  match operation with
  | .token t => cases htoken
  | .feed text =>
    rw [Assembly.apply, ← @String.ofList_toList text] at happly
    refine feed_induct h.waits h text.toList ?_ happly
    intro first c second d₁ d₂ htext hfirst hwatched hlast
    refine hwatched.feed_char (fun hc hstate before hends => ?_) hlast
    have hsplit : text = String.ofList first ++ ">" ++ String.ofList second :=
      String.toList_injective (by simp [htext, hc])
    exact hexcused _ _ d₁ (by rw [hsplit]) hfirst hstate before hends
  | .mustache m =>
    rw [Assembly.apply, mergeMustache] at happly
    split at happly
    · rename_i placed hplace
      cases happly
      exact h.flushText.places (places_of_placeMustache hplace)
    · cases happly
  | .flushText =>
    cases happly
    exact h.flushText
  | .closeProgram =>
    rw [Assembly.apply, Assembly.closeProgram] at happly
    split at happly
    · cases happly
      exact h.flushText
    · cases happly
  | .enterBlock expression =>
    rw [Assembly.apply, Assembly.enterBlock] at happly
    split at happly
    · obtain ⟨stack, hstack, rfl⟩ := stack_of_ofStack happly
      exact of_ends hfits hwaits (h.flushText.texts.openBlock hstack) h.flushText.held
    · cases happly
  | .startInverse =>
    obtain ⟨stack, hstack, rfl⟩ := stack_of_ofStack happly
    exact of_ends hfits hwaits (h.texts.startInverse hstack) h.held
  | .leaveBlock =>
    obtain ⟨stack, hstack, rfl⟩ := stack_of_ofStack happly
    exact of_ends hfits hwaits (h.texts.leaveBlock hstack) h.held

end Watched

end Assembly

/-! ### Trees -/

/-- Markup that leaves no token, an end tag without a name or a declaration, ends right behind a
text, to which what follows will be joined. -/
def DropsBehind (program : Program) (maxDepth : Nat) (text : String) : Prop :=
  ∃ before first second after a,
    Statement.operationsOf program = before ++ .feed (first ++ ">" ++ second) :: after ∧
      (Assembly.fresh maxDepth).run (before ++ [.feed first]) = ⟨a, none⟩ ∧
      (a.lexer.state = .endTagOpen ∨ a.lexer.state = .markupDeclaration) ∧
      a.stack.lastText = text

/-- A text that is read on its own, and has a tag or a comment in it. -/
def HidesMarkup (content : String) : Prop :=
  ∃ token ∈ (Lexer.feed {} content).1, ∀ text, token ≠ .text text

/-- **A program is read watchfully**, if brackets are excused behind which markup was dropped. -/
theorem Assembly.Watched.run {program : Program} {maxDepth : Nat} {a : Assembly}
    (hrun : (Assembly.fresh maxDepth).run (Statement.operationsOf program) = ⟨a, none⟩) :
    a.Watched fun before => DropsBehind program maxDepth (String.ofList before ++ "<") := by
  refine run_induct (fresh maxDepth) (Statement.operationsOf program) ?_ hrun
  intro before operation after c d hoperations hbefore hwatched happly
  have htoken : operation.token? = none :=
    Statement.token?_operationsOf program operation (by simp [hoperations])
  refine hwatched.apply htoken ?_ happly
  rintro first second dropping rfl hfirst hstate text hends
  refine ⟨before, first, second, after, dropping, hoperations, ?_, hstate, ?_⟩
  · rw [run_append, hbefore]
    exact (run_singleton c (.feed first)).trans hfirst
  · exact String.toList_injective (by simp [hends])

/-- The brackets in a tree stop, but for those behind which markup was dropped. -/
theorem bracketsStop_of_assemble {program : Program} {maxDepth : Nat} {nodes : List Node}
    (h : assemble program maxDepth = .ok nodes) {content : String}
    (hmem : .text content ∈ Node.descendantsOf nodes) :
    BracketsStop (fun before => DropsBehind program maxDepth (String.ofList before ++ "<"))
      content.toList := by
  obtain ⟨a, hrun, hfinish⟩ := assemble_eq_ok_iff.mp h
  obtain ⟨-, -, rfl⟩ := Assembly.finish_eq_ok_iff.mp hfinish
  exact (Assembly.Watched.run hrun).flushText.texts.root.reverse content hmem

theorem Lexer.not_hidesMarkup {content : String}
    (h : BracketsStop (fun _ => False) content.toList) : ¬ HidesMarkup content := by
  rintro ⟨token, hmem, hmarkup⟩
  obtain ⟨text, rfl⟩ := read_of_bracketsStop content.toList h (by simp) token hmem
  exact hmarkup text rfl

/-- **Text hides markup in one way only.**  There is a bracket in it with something behind it that
goes on with markup, and when the program was read, markup that leaves no token was dropped right
behind that bracket. -/
theorem preprocess_hidesMarkup {source : String} {limit maxDepth : Nat} {nodes : List Node}
    (h : preprocess source limit maxDepth = .ok nodes) {content : String}
    (hmem : .text content ∈ Node.descendantsOf nodes) (hhides : HidesMarkup content) :
    ∃ program before c rest, parseDirectives source limit = .ok program ∧
      content.toList = before ++ '<' :: c :: rest ∧ goesOnMarkup c = true ∧
      DropsBehind program maxDepth (String.ofList before ++ "<") := by
  unfold preprocess at h
  split at h
  · rename_i program hparse
    have hstop := bracketsStop_of_assemble h hmem
    -- a text whose brackets all stop would hide nothing
    have hopen : ∃ before rest, content.toList = before ++ '<' :: rest ∧ rest ≠ [] ∧ ¬ Stops rest := by
      by_contra hnone
      refine Lexer.not_hidesMarkup (fun before rest hsplit => ?_) hhides
      by_contra hopen
      exact hnone ⟨before, rest, hsplit, fun hnil => hopen (.inl hnil),
        fun hstops => hopen (.inr (.inl hstops))⟩
    obtain ⟨before, rest, hsplit, hne, hopen⟩ := hopen
    have hdrops := ((hstop before rest hsplit).resolve_left hne).resolve_left hopen
    obtain ⟨c, more, rfl⟩ := List.exists_cons_of_ne_nil hne
    have hgoesOn : goesOnMarkup c = true := by
      by_contra hstops
      exact hopen ⟨c, rfl, Bool.eq_false_iff.mpr hstops⟩
    exact ⟨program, before, c, more, hparse, hsplit, hgoesOn, hdrops⟩
  · cases h

/-- A declaration leaves nothing, and what follows it is joined to the bracket before it. -/
theorem preprocess_of_declaration :
    preprocess "<<!x>b>" = .ok [.text "<b>"] ∧
      .text "<b>" ∈ Node.descendantsOf [.text "<b>"] ∧ HidesMarkup "<b>" := by
  have hfeed : (Lexer.feed {} "<b>").1 = [.startTag ⟨⟨"b", []⟩, false, []⟩] := by
    cbv
  refine ⟨by cbv, by simp [Node.descendantsOf, Node.withDescendants], ?_⟩
  exact ⟨_, by rw [hfeed]; exact List.mem_singleton_self _, by simp⟩

/-- The first bracket there was text because of the second one, with which the declaration
begins. -/
theorem preprocess_hidesMarkup_of_declaration :
    preprocess "<<!x>b>" = .ok [.text "<b>"] ∧ HidesMarkup "<b>" ∧
      ∃ program before c rest, parseDirectives "<<!x>b>" = .ok program ∧
        "<b>".toList = before ++ '<' :: c :: rest ∧ goesOnMarkup c = true ∧
        DropsBehind program maxNesting (String.ofList before ++ "<") := by
  obtain ⟨htree, hmem, hhides⟩ := preprocess_of_declaration
  exact ⟨htree, hhides, preprocess_hidesMarkup htree hmem hhides⟩

/-- So it is not true that text never hides markup. -/
theorem not_forall_not_hidesMarkup :
    ¬ ∀ source nodes, preprocess source = .ok nodes →
      ∀ content, .text content ∈ Node.descendantsOf nodes → ¬ HidesMarkup content := by
  intro h
  obtain ⟨htree, hmem, hhides⟩ := preprocess_of_declaration
  exact h _ _ htree _ hmem hhides

end TemplateTree
