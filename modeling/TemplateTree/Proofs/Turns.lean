/-
What a turn can do.

There are eighteen states, but a character has only ten effects on the token under
construction, and a turn then goes on, hands the character to another state, or hands the
token out.  So what every turn preserves is shown for the effects and not for the states.
-/
import TemplateTree.Proofs.Chunks

namespace TemplateTree

namespace Turn

/-- What a character can do to the token under construction. -/
inductive Effect (c : Char) (pending : Option Token) : Option Token → Prop
  | keeps : Effect c pending pending
  /-- The character, or a bracket before it that opened nothing. -/
  | addsText (d : Char) : Effect c pending (addText d pending)
  | addsComment (text : String) : Effect c pending (addComment text pending)
  | beginsStartTag : Effect c pending (some (.startTag (.named c.toString)))
  | beginsEndTag : Effect c pending (some (.endTag (.named c.toString)))
  | addsToName : Effect c pending (onTag (·.addToName c) pending)
  | startsAttribute : Effect c pending (onTag (·.startAttribute c) pending)
  | addsToAttributeName : Effect c pending (onTag (·.addToAttributeName c) pending)
  | addsToAttributeValue : Effect c pending (onTag (·.addToAttributeValue c) pending)
  | closesSelf : Effect c pending (closeSelf pending)

/-- What a turn can do with the token after that. -/
inductive Acts (c : Char) (pending : Option Token) : Turn → Prop
  | goTo (state : LexerState) {pending' : Option Token} (h : Effect c pending pending') :
    Acts c pending (goTo state pending')
  | handTo (state : LexerState) {pending' : Option Token} (h : Effect c pending pending') :
    Acts c pending (handTo state pending')
  | complete (state : LexerState) {pending' : Option Token} (h : Effect c pending pending') :
    Acts c pending (complete state pending')

/-! ### Plans

The token plays no part in which of these it is.  So a turn is also a plan, which the state and
the character make without it, and which is then carried out on whatever is in hand. -/

/-- The changes that a character can make to the token in hand, in a state. -/
inductive Edits (c : Char) : LexerState → (Option Token → Option Token) → Prop
  | keeps (state : LexerState) : Edits c state fun pending => pending
  | addsText {state : LexerState} (hstate : state = .data ∨ state = .tagOpen) (d : Char) :
    Edits c state (addText d)
  | addsComment {state : LexerState} (hstate : state.isInComment = true) (text : String) :
    Edits c state (addComment text)
  | beginsStartTag : Edits c .tagOpen fun _ => some (.startTag (.named c.toString))
  | beginsEndTag : Edits c .endTagOpen fun _ => some (.endTag (.named c.toString))
  | addsToName : Edits c .tagName (onTag (·.addToName c))
  | startsAttribute : Edits c .beforeAttributeName (onTag (·.startAttribute c))
  | addsToAttributeName : Edits c .attributeName (onTag (·.addToAttributeName c))
  | addsToAttributeValue {state : LexerState} (hstate : state.isInAttributeValue = true) :
    Edits c state (onTag (·.addToAttributeValue c))
  | closesSelf : Edits c .selfClosingStartTag closeSelf

/-- A change of the token in hand, and what then is done with it. -/
inductive Plan (c : Char) (state : LexerState) : (Option Token → Turn) → Prop
  | goTo (next : LexerState) {edit : Option Token → Option Token} (h : Edits c state edit) :
    Plan c state fun pending => goTo next (edit pending)
  | handTo (next : LexerState) {edit : Option Token → Option Token} (h : Edits c state edit) :
    Plan c state fun pending => handTo next (edit pending)
  | complete (next : LexerState) {edit : Option Token → Option Token} (h : Edits c state edit) :
    Plan c state fun pending => complete next (edit pending)

variable (c : Char)

/-! #### Text and the openings of markup -/

theorem plan_data : Plan c .data (data · c) := by
  unfold data
  split
  · exact .complete _ (.keeps _)
  · exact .goTo _ (.addsText (.inl rfl) c)

theorem plan_tagOpen : Plan c .tagOpen (tagOpen · c) := by
  unfold tagOpen
  repeat' split
  · exact .goTo _ (.keeps _)
  · exact .goTo _ (.keeps _)
  · exact .goTo _ (.keeps _)
  · exact .goTo _ .beginsStartTag
  · exact .handTo _ (.addsText (.inr rfl) '<')

theorem plan_endTagOpen : Plan c .endTagOpen (endTagOpen · c) := by
  unfold endTagOpen
  repeat' split
  · exact .goTo _ .beginsEndTag
  · exact .goTo _ (.keeps _)
  · exact .goTo _ (.keeps _)

theorem plan_markupDeclaration : Plan c .markupDeclaration (markupDeclaration · c) := by
  unfold markupDeclaration
  split <;> exact .goTo _ (.keeps _)

/-! #### Comments -/

theorem plan_comment {state : LexerState} (hstate : state.isInComment = true) (held : String) :
    Plan c state (comment held · c) :=
  .goTo _ (.addsComment hstate _)

theorem plan_commentStart : Plan c .commentStart (commentStart · c) := by
  unfold commentStart
  repeat' split
  · exact .goTo _ (.keeps _)
  · exact .complete _ (.keeps _)
  · exact plan_comment c rfl _

theorem plan_commentStartDash : Plan c .commentStartDash (commentStartDash · c) := by
  unfold commentStartDash
  repeat' split
  · exact .goTo _ (.keeps _)
  · exact .complete _ (.keeps _)
  · exact plan_comment c rfl _

theorem plan_insideComment : Plan c .comment (insideComment · c) := by
  unfold insideComment
  split
  · exact .goTo _ (.keeps _)
  · exact plan_comment c rfl _

theorem plan_commentEndDash : Plan c .commentEndDash (commentEndDash · c) := by
  unfold commentEndDash
  split
  · exact .goTo _ (.keeps _)
  · exact plan_comment c rfl _

theorem plan_commentEnd : Plan c .commentEnd (commentEnd · c) := by
  unfold commentEnd
  repeat' split
  · exact .complete _ (.keeps _)
  · exact .goTo _ (.addsComment rfl _)
  · exact plan_comment c rfl _

/-! #### Tags -/

theorem plan_tagName : Plan c .tagName (tagName · c) := by
  unfold tagName
  repeat' split
  · exact .goTo _ (.keeps _)
  · exact .goTo _ (.keeps _)
  · exact .complete _ (.keeps _)
  · exact .goTo _ .addsToName

theorem plan_beforeAttributeName : Plan c .beforeAttributeName (beforeAttributeName · c) := by
  unfold beforeAttributeName
  repeat' split
  · exact .goTo _ (.keeps _)
  · exact .goTo _ (.keeps _)
  · exact .complete _ (.keeps _)
  · exact .goTo _ .startsAttribute

theorem plan_attributeName : Plan c .attributeName (attributeName · c) := by
  unfold attributeName
  repeat' split
  · exact .goTo _ (.keeps _)
  · exact .goTo _ (.keeps _)
  · exact .goTo _ (.keeps _)
  · exact .complete _ (.keeps _)
  · exact .goTo _ .addsToAttributeName

theorem plan_beforeAttributeValue : Plan c .beforeAttributeValue (beforeAttributeValue · c) := by
  unfold beforeAttributeValue
  repeat' split
  · exact .goTo _ (.keeps _)
  · exact .goTo _ (.keeps _)
  · exact .goTo _ (.keeps _)
  · exact .complete _ (.keeps _)
  · exact .goTo _ (.addsToAttributeValue rfl)

theorem plan_quotedValue {state : LexerState} (hstate : state.isInAttributeValue = true)
    (quote : Char) (next : LexerState) : Plan c state (quotedValue quote next · c) := by
  unfold quotedValue
  split
  · exact .goTo _ (.keeps _)
  · exact .goTo _ (.addsToAttributeValue hstate)

theorem plan_unquotedValue : Plan c .attributeValueUnquoted (unquotedValue · c) := by
  unfold unquotedValue
  repeat' split
  · exact .goTo _ (.keeps _)
  · exact .complete _ (.keeps _)
  · exact .goTo _ (.addsToAttributeValue rfl)

theorem plan_afterQuotedValue : Plan c .afterAttributeValueQuoted (afterQuotedValue · c) := by
  unfold afterQuotedValue
  repeat' split
  · exact .goTo _ (.keeps _)
  · exact .goTo _ (.keeps _)
  · exact .complete _ (.keeps _)
  · exact .handTo _ (.keeps _)

theorem plan_selfClosingStartTag : Plan c .selfClosingStartTag (selfClosingStartTag · c) := by
  unfold selfClosingStartTag
  split
  · exact .complete _ .closesSelf
  · exact .handTo _ (.keeps _)

/-! #### All states -/

/-- **A turn is planned without the token in hand**, in every state. -/
theorem plan_take (state : LexerState) : Plan c state (take state · c) := by
  cases state with
  | data => exact plan_data c
  | tagOpen => exact plan_tagOpen c
  | endTagOpen => exact plan_endTagOpen c
  | markupDeclaration => exact plan_markupDeclaration c
  | commentStart => exact plan_commentStart c
  | commentStartDash => exact plan_commentStartDash c
  | comment => exact plan_insideComment c
  | commentEndDash => exact plan_commentEndDash c
  | commentEnd => exact plan_commentEnd c
  | tagName => exact plan_tagName c
  | beforeAttributeName => exact plan_beforeAttributeName c
  | attributeName => exact plan_attributeName c
  | beforeAttributeValue => exact plan_beforeAttributeValue c
  | attributeValueDoubleQuoted | attributeValueSingleQuoted => exact plan_quotedValue c rfl _ _
  | attributeValueUnquoted => exact plan_unquotedValue c
  | afterAttributeValueQuoted => exact plan_afterQuotedValue c
  | selfClosingStartTag => exact plan_selfClosingStartTag c

variable {c}

theorem effect_of_edits {state : LexerState} {edit : Option Token → Option Token}
    (h : Edits c state edit) (pending : Option Token) : Effect c pending (edit pending) := by
  cases h with
  | keeps => exact .keeps
  | addsText hstate d => exact .addsText d
  | addsComment hstate text => exact .addsComment text
  | beginsStartTag => exact .beginsStartTag
  | beginsEndTag => exact .beginsEndTag
  | addsToName => exact .addsToName
  | startsAttribute => exact .startsAttribute
  | addsToAttributeName => exact .addsToAttributeName
  | addsToAttributeValue hstate => exact .addsToAttributeValue
  | closesSelf => exact .closesSelf

theorem acts_of_plan {state : LexerState} {turn : Option Token → Turn} (h : Plan c state turn)
    (pending : Option Token) : Acts c pending (turn pending) := by
  cases h with
  | goTo next hedit => exact .goTo next (effect_of_edits hedit pending)
  | handTo next hedit => exact .handTo next (effect_of_edits hedit pending)
  | complete next hedit => exact .complete next (effect_of_edits hedit pending)

/-- **A turn has one of ten effects and one of three ends**, in every state. -/
theorem acts_take (pending : Option Token) (c : Char) (state : LexerState) :
    Acts c pending (take state pending c) :=
  acts_of_plan (plan_take c state) pending

end Turn

namespace Lexer

/-- A step is a turn on the first unread character, or opens a comment. -/
theorem step?_cases {l next : Lexer} {completed : Option Token}
    (h : l.step? = some (completed, next)) :
    (l.state = .markupDeclaration ∧ completed = none ∧ next.state = .commentStart ∧
      next.pending = some (.comment "")) ∨
    ∃ c, completed = (Turn.take l.state l.pending c).completed ∧
      next.state = (Turn.take l.state l.pending c).state ∧
      next.pending = (Turn.take l.state l.pending c).pending := by
  unfold step? at h
  match hopening : l.commentOpening with
  | .undecided => simp [hopening] at h
  | .yes =>
    have hstate : l.state = .markupDeclaration := by
      unfold commentOpening at hopening
      split at hopening
      · assumption
      · cases hopening
    simp only [hopening, Option.some.injEq, Prod.mk.injEq] at h
    obtain ⟨rfl, rfl⟩ := h
    exact Or.inl ⟨hstate, rfl, rfl, rfl⟩
  | .no =>
    match hunread : l.unread with
    | [] => simp [hopening, hunread] at h
    | c :: rest =>
      simp only [hopening, hunread, Option.some.injEq, Prod.mk.injEq] at h
      obtain ⟨rfl, rfl⟩ := h
      exact Or.inr ⟨c, rfl, rfl, rfl⟩

/-- What every step preserves, reading preserves, and what every step makes sure of a token,
reading makes sure of all. -/
theorem run_preserves {Holds : Lexer → Prop} {Good : Token → Prop}
    (hstep : ∀ {l next : Lexer} {completed : Option Token}, Holds l →
      l.step? = some (completed, next) → Holds next ∧ ∀ token ∈ completed, Good token)
    {l : Lexer} (h : Holds l) {done : Array Token} (hdone : ∀ token ∈ done, Good token) :
    Holds (l.run done).2 ∧ ∀ token ∈ (l.run done).1, Good token := by
  match hnext : l.step? with
  | none =>
    rw [run_of_stop hnext]
    exact ⟨h, hdone⟩
  | some (none, next) =>
    rw [run_of_step hnext]
    exact run_preserves hstep (hstep h hnext).1 hdone
  | some (some token, next) =>
    obtain ⟨hholds, hgood⟩ := hstep h hnext
    rw [run_of_complete hnext]
    refine run_preserves hstep hholds ?_
    intro token' hmem
    rcases Array.mem_push.mp hmem with hold | rfl
    · exact hdone token' hold
    · exact hgood token' rfl
termination_by l.work
decreasing_by all_goals exact work_step hnext

theorem read_preserves {Holds : Lexer → Prop} {Good : Token → Prop}
    (hstep : ∀ {l next : Lexer} {completed : Option Token}, Holds l →
      l.step? = some (completed, next) → Holds next ∧ ∀ token ∈ completed, Good token)
    {l : Lexer} {text : List Char} (h : Holds (l.extend text)) :
    Holds (l.read text).2 ∧ ∀ token ∈ (l.read text).1, Good token := by
  obtain ⟨hholds, hgood⟩ := @run_preserves Holds Good hstep (l.extend text) h #[] (by simp)
  exact ⟨hholds, fun token hmem => hgood token (by simpa [read] using hmem)⟩

end Lexer

end TemplateTree
