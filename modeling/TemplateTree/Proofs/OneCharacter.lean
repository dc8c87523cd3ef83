/-
One character at a time.

Markup is read in whole pieces, and the tokens of a piece go to the stack only after all of
it was read.  For what is said of every moment of a reading that is too coarse.  But a piece
may as well be cut into its characters, and then each of them finds a lexer that waits for
it: `CharRead` is all that one character can bring about there, and `feed_induct` and
`run_induct` carry on what holds at every moment, each time with what was read before.
-/
import TemplateTree.Proofs.Composition
import TemplateTree.Proofs.Readings
import TemplateTree.Proofs.TokenMarkup

namespace TemplateTree

/-- In a tag or a comment. -/
def LexerState.isInMarkup (state : LexerState) : Bool :=
  state.isInTag || state.isInComment

/-! ### Turns in a tag or a comment -/

namespace Turn

/-- What a turn does in a tag or a comment: it stays there, or it completes what is in hand. -/
inductive InMarkup (pending : Option Token) (t : Turn) : Prop
  | stays (hstate : t.state.isInMarkup = true) (hcompleted : t.completed = none)
  | completes (hstate : t.state = .data) (hpending : t.pending = none) (hagain : t.again = false)
      (hcompleted : t.completed = pending ∨ t.completed = closeSelf pending)

theorem inMarkup_take {state : LexerState} (hstate : state.isInMarkup = true)
    (pending : Option Token) (c : Char) : (take state pending c).InMarkup pending := by
  cases state with
  | data | tagOpen | endTagOpen | markupDeclaration => cases hstate
  | _ =>
    simp only [take, commentStart, commentStartDash, insideComment, commentEndDash, commentEnd,
      comment, tagName, beforeAttributeName, attributeName, beforeAttributeValue, quotedValue,
      unquotedValue, afterQuotedValue, selfClosingStartTag]
    repeat' split
    all_goals first
      | exact .stays rfl rfl
      | exact .completes rfl rfl rfl (.inl rfl)
      | exact .completes rfl rfl rfl (.inr rfl)

end Turn

namespace Lexer

variable {l : Lexer} {c : Char}

/-! ### Waiting -/

/-- Everything is read, but perhaps a dash that may begin a comment. -/
def Waits (l : Lexer) : Prop :=
  l.unread = [] ∨ l.state = .markupDeclaration ∧ l.unread = ['-']

theorem step?_of_dash (pending : Option Token) :
    step? ⟨.markupDeclaration, pending, ['-']⟩ = none := rfl

theorem Waits.step? (h : l.Waits) : l.step? = none := by
  obtain ⟨state, pending, unread⟩ := l
  rcases h with hunread | ⟨hstate, hunread⟩
  · simp only at hunread
    rw [hunread]
    exact step?_of_unread_nil state pending
  · simp only at hstate hunread
    rw [hstate, hunread]
    exact step?_of_dash pending

theorem waits_of_stop (h : l.step? = none) : l.Waits := by
  by_cases hstate : l.state = .markupDeclaration
  · obtain ⟨state, pending, unread⟩ := l
    simp only at hstate
    subst hstate
    match unread with
    | [] => exact .inl rfl
    | c :: rest =>
      have hopening : commentOpening ⟨.markupDeclaration, pending, c :: rest⟩ = .undecided := by
        by_contra hdecided
        unfold Lexer.step? at h
        split at h <;> simp_all
      unfold commentOpening at hopening
      simp only [if_true] at hopening
      split at hopening
      · rename_i hdash
        exact .inr ⟨rfl, hdash⟩
      · cases hopening
      · cases hopening
  · exact .inl (idle_of_stop h hstate)

theorem waits_read (l : Lexer) (text : List Char) : (l.read text).2.Waits :=
  waits_of_stop (step?_run _ _)

end Lexer

namespace Assembly

variable {a b : Assembly}

theorem waits_flushText (h : a.lexer.Waits) : a.flushText.lexer.Waits := by
  obtain ⟨hstate, hunread⟩ := lexer_flushText a
  unfold Lexer.Waits
  rw [hstate, hunread]
  exact h

/-- An expression goes to a token only where there is nothing left to read. -/
theorem waits_places {m : Mustache} (h : a.lexer.Waits) (hplaces : a.Places m b) :
    b.lexer.Waits := by
  have hread : a.lexer.state ≠ .markupDeclaration → a.lexer.unread = [] := by
    intro hstate
    exact h.resolve_right fun hdash => hstate hdash.1
  cases hplaces with
  | node hstate => exact h
  | modifier hstate hpending => exact h
  | value hstate hpending hlast =>
    refine .inl (hread fun heq => ?_)
    rw [heq] at hstate
    cases hstate
  | comment hstate hpending =>
    refine .inl (hread fun heq => ?_)
    rw [heq] at hstate
    cases hstate

/-- **Between two operations a lexer waits**, whether the first one failed or not. -/
theorem waits_apply (h : a.lexer.Waits) (operation : Operation) :
    (a.apply operation).assembly.lexer.Waits :=
  @lexer_apply Lexer.Waits (fun l text _ => Lexer.waits_read l text) (fun _ h => waits_flushText h)
    waits_places a h operation

end Assembly

namespace Lexer

variable {l l' : Lexer} {c : Char}

/-! ### What one character brings about -/

theorem read_of_step {text : List Char} (hstep : (l.extend text).step? = some (none, l'))
    (hstop : l'.step? = none) : l.read text = ([], l') := by
  rw [read, run_of_step hstep, run_of_stop hstop]

/-- A character that is handed on is read in the next state. -/
theorem read_of_again {state : LexerState} (hstate : state ≠ .markupDeclaration)
    {pending : Option Token} (hagain : (Turn.take state pending c).again = true)
    (hcompleted : (Turn.take state pending c).completed = none) :
    read ⟨state, pending, []⟩ [c] =
      read ⟨(Turn.take state pending c).state, (Turn.take state pending c).pending, []⟩ [c] := by
  have hopening : commentOpening ⟨state, pending, [c]⟩ = .no := by
    rw [commentOpening, if_neg hstate]
  have hstep : step? ⟨state, pending, [c]⟩ = some (none,
      ⟨(Turn.take state pending c).state, (Turn.take state pending c).pending, [c]⟩) := by
    simp [step?, hopening, hagain, hcompleted]
  simp only [read, extend, List.nil_append]
  rw [run_of_step hstep]

/-- What a character brings about in a tag or a comment. -/
inductive MarkupRead : List Token × Lexer → Prop
  | stays {l : Lexer} (hstate : l.state.isInMarkup = true) : MarkupRead ([], l)
  | completes {token : Token} (htoken : ∀ content, token ≠ .text content) :
    MarkupRead ([token], ⟨.data, none, []⟩)

/-- A tag or a comment is in hand. -/
theorem not_text_of_isInMarkup {state : LexerState} {pending : Option Token}
    (h : state.Fits [] pending) (hstate : state.isInMarkup = true) :
    ∃ token, pending = some token ∧ ∀ content, token ≠ .text content := by
  rcases Bool.or_eq_true .. ▸ hstate with htag | hcomment
  · obtain ⟨token, tag, hpending, htoken, -⟩ := h.of_isInTag htag
    refine ⟨token, hpending, ?_⟩
    rintro content rfl
    cases htoken
  · obtain ⟨content, hpending, -⟩ := h.of_isInComment hcomment
    exact ⟨_, hpending, by simp⟩

/-- A character that is not handed on. -/
theorem markupRead_of_not_again {state : LexerState} {pending : Option Token}
    (h : state.Fits [] pending) (hstate : state.isInMarkup = true)
    (hagain : (Turn.take state pending c).again = false) :
    MarkupRead (read ⟨state, pending, []⟩ [c]) := by
  have hdeclaration : state ≠ .markupDeclaration := by
    rintro rfl
    cases hstate
  rw [read_singleton hdeclaration pending hagain]
  cases Turn.inMarkup_take hstate pending c with
  | stays hnext hcompleted =>
    rw [hcompleted]
    exact .stays hnext
  | completes hnext hpending hagain hcompleted =>
    obtain ⟨token, rfl, htoken⟩ := not_text_of_isInMarkup h hstate
    rw [hnext, hpending]
    rcases hcompleted with hsame | hself
    · rw [hsame]
      exact .completes htoken
    · rw [hself]
      match token with
      | .text content => exact absurd rfl (htoken content)
      | .startTag tag | .endTag tag | .comment content => exact .completes (by simp)

/-- **In a tag or a comment a character goes on with it or completes it.** -/
theorem markupRead {state : LexerState} {pending : Option Token} (h : state.Fits [] pending)
    (hstate : state.isInMarkup = true) (c : Char) :
    MarkupRead (read ⟨state, pending, []⟩ [c]) := by
  by_cases hagain : (Turn.take state pending c).again = true
  · have hdeclaration : state ≠ .markupDeclaration := by
      rintro rfl
      cases hstate
    cases Turn.inMarkup_take hstate pending c with
    | stays hnext hcompleted =>
      rw [read_of_again hdeclaration hagain hcompleted]
      -- no character is handed on twice
      have hlast : (Turn.take (Turn.take state pending c).state
          (Turn.take state pending c).pending c).again = false := by
        by_contra htwice
        have hhasty := (Turn.isHasty_of_again hagain).2
        rw [(Turn.isHasty_of_again (Bool.not_eq_false _ ▸ htwice)).1] at hhasty
        cases hhasty
      exact markupRead_of_not_again ((Turn.fits_take h c).pending hcompleted) hnext hlast
    | completes hnext hpending hnot hcompleted =>
      rw [hnot] at hagain
      cases hagain
  · exact markupRead_of_not_again h hstate (Bool.eq_false_iff.mpr hagain)

/-- **What one character brings about**, for a lexer that waits for it.  Text is read in three
ways only: it goes on, it ends at a bracket, or it begins with a bracket that opens nothing. -/
inductive CharRead (c : Char) : Lexer → List Token × Lexer → Prop
  | text (pending : Option Token) (hc : c ≠ '<') :
    CharRead c ⟨.data, pending, []⟩ ([], ⟨.data, Turn.addText c pending, []⟩)
  | bracket (pending : Option Token) (hc : c = '<') :
    CharRead c ⟨.data, pending, []⟩ (pending.toList, ⟨.tagOpen, none, []⟩)
  | stray (hc : c ≠ '<') (hopens : goesOnMarkup c = false) :
    CharRead c ⟨.tagOpen, none, []⟩ ([], ⟨.data, some (.text ("<".push c)), []⟩)
  | brackets (hc : c = '<') :
    CharRead c ⟨.tagOpen, none, []⟩ ([.text "<"], ⟨.tagOpen, none, []⟩)
  /-- Markup that leaves no token ends. -/
  | dropped {state : LexerState} (unread : List Char) (hc : c = '>')
      (hstate : state = .endTagOpen ∨ state = .markupDeclaration) :
    CharRead c ⟨state, none, unread⟩ ([], ⟨.data, none, []⟩)
  | opening {l l' : Lexer} (hstate : l.state ≠ .data) (hnext : l'.state ≠ .data) :
    CharRead c l ([], l')
  | completes {l : Lexer} {token : Token} (hstate : l.state ≠ .data)
      (htoken : ∀ content, token ≠ .text content) : CharRead c l ([token], ⟨.data, none, []⟩)

/-- A character of an opening. -/
theorem charRead_of_goTo {state state' : LexerState} {pending pending' : Option Token}
    (hstate : state ≠ .markupDeclaration) (hdata : state ≠ .data) (hnext : state' ≠ .data)
    (h : Turn.take state pending c = Turn.goTo state' pending') :
    CharRead c ⟨state, pending, []⟩ (read ⟨state, pending, []⟩ [c]) := by
  have hread : read ⟨state, pending, []⟩ [c] = ([], ⟨state', pending', []⟩) :=
    passes_singleton hstate h
  rw [hread]
  exact .opening hdata hnext

theorem charRead_data (pending : Option Token) (c : Char) :
    CharRead c ⟨.data, pending, []⟩ (read ⟨.data, pending, []⟩ [c]) := by
  by_cases hc : c = '<'
  · have hturn : Turn.take .data pending c = Turn.complete .tagOpen pending := if_pos hc
    rw [read_singleton (by decide) pending (by rw [hturn]; rfl), hturn]
    exact .bracket pending hc
  · have hturn : Turn.take .data pending c = Turn.goTo .data (Turn.addText c pending) := if_neg hc
    rw [read_singleton (by decide) pending (by rw [hturn]; rfl), hturn]
    exact .text pending hc

theorem charRead_tagOpen (c : Char) :
    CharRead c ⟨.tagOpen, none, []⟩ (read ⟨.tagOpen, none, []⟩ [c]) := by
  by_cases hopens : goesOnMarkup c = true
  · have hgoTo : ∃ state pending, state ≠ .data ∧
        Turn.take .tagOpen none c = Turn.goTo state pending := by
      simp only [Turn.take, Turn.tagOpen]
      split
      · exact ⟨.markupDeclaration, none, by decide, rfl⟩
      split
      · exact ⟨.endTagOpen, none, by decide, rfl⟩
      split
      · exact ⟨.tagOpen, none, by decide, rfl⟩
      split
      · exact ⟨.tagName, _, by decide, rfl⟩
      · simp_all [goesOnMarkup]
    obtain ⟨state, pending, hstate, hturn⟩ := hgoTo
    exact charRead_of_goTo (by decide) (by decide) hstate hturn
  · rw [read_of_opensNothing (Bool.eq_false_iff.mpr hopens)]
    by_cases hc : c = '<'
    · have hturn : Turn.take .data (some (.text "<")) c =
          Turn.complete .tagOpen (some (.text "<")) := if_pos hc
      rw [read_of_complete (by decide) hturn]
      exact .brackets hc
    · have hturn : Turn.take .data (some (.text "<")) c =
          Turn.goTo .data (some (.text ("<".push c))) := if_neg hc
      have hread : read ⟨.data, some (.text "<"), []⟩ [c] =
          ([], ⟨.data, some (.text ("<".push c)), []⟩) := passes_singleton (by decide) hturn
      rw [hread]
      exact .stray hc (Bool.eq_false_iff.mpr hopens)

theorem charRead_endTagOpen (c : Char) :
    CharRead c ⟨.endTagOpen, none, []⟩ (read ⟨.endTagOpen, none, []⟩ [c]) := by
  by_cases hletter : isAsciiLetter c = true
  · have hturn : Turn.take .endTagOpen none c =
        Turn.goTo .tagName (some (.endTag (.named c.toString))) := if_pos hletter
    exact charRead_of_goTo (by decide) (by decide) (by decide) hturn
  · by_cases hc : c = '>'
    · have hturn : Turn.take .endTagOpen none c = Turn.goTo .data none := by
        rw [hc]
        rfl
      have hread : read ⟨.endTagOpen, none, []⟩ [c] = ([], ⟨.data, none, []⟩) :=
        passes_singleton (by decide) hturn
      rw [hread]
      exact .dropped [] hc (.inl rfl)
    · have hturn : Turn.take .endTagOpen none c = Turn.goTo .endTagOpen none := by
        simp only [Turn.take, Turn.endTagOpen, if_neg hletter, if_neg hc]
      exact charRead_of_goTo (by decide) (by decide) (by decide) hturn

/-- A declaration is passed over, and a dash at its beginning waits for the next character. -/
theorem charRead_markupDeclaration (c : Char) :
    CharRead c ⟨.markupDeclaration, none, []⟩ (read ⟨.markupDeclaration, none, []⟩ [c]) := by
  by_cases hdash : c = '-'
  · have hread : read ⟨.markupDeclaration, none, []⟩ [c] =
        ([], ⟨.markupDeclaration, none, ['-']⟩) := by
      have hstop : (extend ⟨.markupDeclaration, none, []⟩ ['-']).step? = none := step?_of_dash none
      rw [hdash, read, run_of_stop hstop]
      rfl
    rw [hread]
    exact .opening (by decide) (by decide)
  · have hopening : commentOpening ⟨.markupDeclaration, none, [c]⟩ = .no := by
      simp [commentOpening, hdash]
    by_cases hc : c = '>'
    · have hread : read ⟨.markupDeclaration, none, []⟩ [c] = ([], ⟨.data, none, []⟩) := by
        refine read_of_step ?_ (step?_of_unread_nil _ _)
        rw [hc]
        rfl
      rw [hread]
      exact .dropped [] hc (.inr rfl)
    · have hread : read ⟨.markupDeclaration, none, []⟩ [c] =
          ([], ⟨.markupDeclaration, none, []⟩) := by
        refine read_of_step ?_ (step?_of_unread_nil _ _)
        simp [extend, step?, hopening, Turn.take, Turn.markupDeclaration, Turn.goTo, hc]
      rw [hread]
      exact .opening (by decide) (by decide)

/-- After a dash that waited, a second one opens a comment, and anything else is read as if the
first had not been there. -/
theorem charRead_dash (c : Char) :
    CharRead c ⟨.markupDeclaration, none, ['-']⟩ (read ⟨.markupDeclaration, none, ['-']⟩ [c]) := by
  by_cases hdash : c = '-'
  · have hread : read ⟨.markupDeclaration, none, ['-']⟩ [c] =
        ([], ⟨.commentStart, some (.comment ""), []⟩) := by
      refine read_of_step ?_ (step?_of_unread_nil _ _)
      rw [hdash]
      rfl
    rw [hread]
    exact .opening (by decide) (by decide)
  · have hstep : step? ⟨.markupDeclaration, none, ['-', c]⟩ =
        some (none, ⟨.markupDeclaration, none, [c]⟩) := by
      have hopening : commentOpening ⟨.markupDeclaration, none, ['-', c]⟩ = .no := by
        simp [commentOpening, hdash]
      simp [step?, hopening, Turn.take, Turn.markupDeclaration, Turn.goTo]
    have hread : read ⟨.markupDeclaration, none, ['-']⟩ [c] =
        read ⟨.markupDeclaration, none, []⟩ [c] := by
      simp only [read, extend, List.nil_append, List.cons_append]
      rw [run_of_step hstep]
    rw [hread]
    have hsame := charRead_markupDeclaration c
    generalize read ⟨.markupDeclaration, none, []⟩ [c] = result at hsame
    cases hsame with
    | dropped unread hc hstate => exact .dropped _ hc hstate
    | opening hstate hnext => exact .opening hstate hnext
    | completes hstate htoken => exact .completes hstate htoken

/-- **Nothing else can come of a character.** -/
theorem charRead (h : l.Fits []) (hwaits : l.Waits) (c : Char) : CharRead c l (l.read [c]) := by
  obtain ⟨state, pending, unread⟩ := l
  have hopening := h.of_opening
  have hunread : state ≠ .markupDeclaration → unread = [] := fun hstate =>
    hwaits.resolve_right fun hdash => hstate hdash.1
  simp only at hopening
  by_cases hmarkup : state.isInMarkup = true
  · obtain rfl := hunread (by rintro rfl; cases hmarkup)
    have hdata : state ≠ .data := by
      rintro rfl
      cases hmarkup
    have hread := markupRead h hmarkup c
    generalize read ⟨state, pending, []⟩ [c] = result at hread
    cases hread with
    | @stays l hstate =>
      refine .opening hdata fun hnext => ?_
      rw [hnext] at hstate
      cases hstate
    | completes htoken => exact .completes hdata htoken
  · cases state with
    | data =>
      obtain rfl := hunread (by decide)
      exact charRead_data pending c
    | tagOpen =>
      obtain rfl := hunread (by decide)
      obtain rfl := hopening (.inl rfl)
      exact charRead_tagOpen c
    | endTagOpen =>
      obtain rfl := hunread (by decide)
      obtain rfl := hopening (.inr (.inl rfl))
      exact charRead_endTagOpen c
    | markupDeclaration =>
      obtain rfl := hopening (.inr (.inr rfl))
      rcases hwaits with hnone | ⟨-, hdash⟩
      · obtain rfl := hnone
        exact charRead_markupDeclaration c
      · obtain rfl := hdash
        exact charRead_dash c
    | _ => exact absurd rfl hmarkup

end Lexer

/-! ### Every moment of a reading -/

namespace Assembly

variable {a b : Assembly}

theorem feed_empty (h : a.lexer.Waits) : a.feed "" = ⟨a, none⟩ := by
  have hread : a.lexer.read [] = ([], a.lexer) := by
    rw [Lexer.read, Lexer.extend_nil, Lexer.run_of_stop h.step?]
  have htext : "".toList = [] := rfl
  rw [feed_eq_mergeTokens, htext, hread]
  rfl

/-- A piece of markup goes well if its beginning does, and then what follows. -/
theorem done_of_feed_append {first second : String} (h : a.feed (first ++ second) = ⟨b, none⟩) :
    ∃ c, a.feed first = ⟨c, none⟩ ∧ c.feed second = ⟨b, none⟩ := by
  obtain ⟨herror, hassembly⟩ := feed_append_alike a first second
  rw [h] at herror hassembly
  refine Outcome.done_of_andThen ?_
  generalize (a.feed first).andThen (·.feed second) = o at herror hassembly ⊢
  obtain ⟨c, error⟩ := o
  rw [show c = b from (hassembly rfl).symm, show error = none from herror.symm]

/-- **What every character preserves, a piece of markup preserves.**  Of each character it is
known what was read before it. -/
theorem feed_induct {Holds : Assembly → Prop} (hwaits : a.lexer.Waits) (h : Holds a)
    (text : List Char)
    (hstep : ∀ first c second c₁ c₂, text = first ++ c :: second →
      a.feed (String.ofList first) = ⟨c₁, none⟩ → Holds c₁ →
      c₁.feed (String.ofList [c]) = ⟨c₂, none⟩ → Holds c₂)
    (hfeed : a.feed (String.ofList text) = ⟨b, none⟩) : Holds b := by
  induction text using List.reverseRecOn generalizing b with
  | nil =>
    rw [show String.ofList [] = "" from rfl, feed_empty hwaits] at hfeed
    cases hfeed
    exact h
  | append_singleton first c ih =>
    rw [String.ofList_append] at hfeed
    obtain ⟨c₁, hfirst, hlast⟩ := done_of_feed_append hfeed
    refine hstep first c [] c₁ b rfl hfirst (ih ?_ hfirst) hlast
    rintro first' d second c₂ c₃ rfl
    exact hstep first' d (second ++ [c]) c₂ c₃ (by simp)

/-- **What every operation preserves, a run preserves.**  Of each operation it is known what was
done before it. -/
theorem run_induct {Holds : Assembly → Prop} (h : Holds a) (operations : List Operation)
    (hstep : ∀ before operation after c₁ c₂, operations = before ++ operation :: after →
      a.run before = ⟨c₁, none⟩ → Holds c₁ → c₁.apply operation = ⟨c₂, none⟩ → Holds c₂)
    (hrun : a.run operations = ⟨b, none⟩) : Holds b := by
  induction operations using List.reverseRecOn generalizing b with
  | nil =>
    cases hrun
    exact h
  | append_singleton before operation ih =>
    rw [run_append] at hrun
    obtain ⟨c₁, hbefore, hlast⟩ := Outcome.done_of_andThen hrun
    rw [run_singleton] at hlast
    refine hstep before operation [] c₁ b rfl hbefore (ih ?_ hbefore) hlast
    rintro before' operation' after c₂ c₃ rfl
    exact hstep before' operation' (after ++ [operation]) c₂ c₃ (by simp)

end Assembly

end TemplateTree
