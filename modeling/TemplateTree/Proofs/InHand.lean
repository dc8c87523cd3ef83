/-
The state of a lexer says what it has in hand.

A lexer can come about in many ways: it reads, its text is taken early, expressions are put
into it and blocks stop it, in whatever order and whether that fails or not.  `Reachable` is
all of this, with the moments in the middle of a reading, and with any stack at each step,
since nothing keeps one lexer to one stack.

Of every reachable lexer `InHand` says which token is under construction and how far it has
come.  The rest follows: an expression in a comment always finds the comment, one in a value
always finds an attribute, and a character of a name, of a value or of a comment is written
down.  The turns ask for the right token and pass over a wrong one in silence; there never is
a wrong one.
-/
import TemplateTree.Proofs.Readings
import TemplateTree.Proofs.WellFormed

namespace TemplateTree

/-! ### Reachable lexers -/

namespace Lexer

/-- A lexer that comes about from a new one. -/
inductive Reachable : Lexer → Prop
  | fresh : Reachable {}
  /-- Text arrives. -/
  | extend {l : Lexer} (h : Reachable l) (text : List Char) : Reachable (l.extend text)
  /-- In the middle of a reading. -/
  | step {l next : Lexer} {completed : Option Token} (h : Reachable l)
      (hstep : l.step? = some (completed, next)) : Reachable next
  | feed {l : Lexer} (h : Reachable l) (text : String) : Reachable (l.feed text).2
  | takeText {l : Lexer} (h : Reachable l) : Reachable l.takeText.2
  /-- An operation on the lexer and a stack, whether it fails or not. -/
  | apply {a : Assembly} (h : Reachable a.lexer) (operation : Operation) :
      Reachable (a.apply operation).assembly.lexer

/-- What a reachable lexer has in hand fits its state. -/
theorem Reachable.fits {l : Lexer} (h : l.Reachable) : l.Fits [] := by
  induction h with
  | fresh => exact LexerState.Fits.data
  | extend h text ih => exact ih
  | step h hstep ih => exact ih.next hstep
  | feed h text ih => exact (fits_read ih text.toList).1
  | takeText h ih => exact ih.takeText.1
  | apply h operation ih => exact Assembly.fits_apply ih operation

end Lexer

/-! ### Where a character goes -/

/-- Does a character belong to a name, a value or a comment, in a state? -/
def LexerState.owns (c : Char) : LexerState → Bool
  | tagName | beforeAttributeName => !isMarkupSpace c && c != '/' && c != '>'
  | attributeName => !isMarkupSpace c && c != '/' && c != '=' && c != '>'
  | beforeAttributeValue => !isMarkupSpace c && c != '\"' && c != '\'' && c != '>'
  | attributeValueDoubleQuoted => c != '\"'
  | attributeValueSingleQuoted => c != '\''
  | attributeValueUnquoted => !isMarkupSpace c && c != '>'
  | commentStart | commentStartDash | commentEnd => c != '>'
  | comment | commentEndDash => true
  | data | tagOpen | endTagOpen | markupDeclaration | afterAttributeValueQuoted
  | selfClosingStartTag => false

/-- A tag and the tag with one character more, at the place that the state says: in the name of
the tag, as a new attribute, or in the name or the value of the last one. -/
inductive Tag.Gains (c : Char) : LexerState → Tag → Tag → Prop
  | name (name : String) (attributes : List Attribute) :
    Gains c .tagName ⟨name, attributes⟩ ⟨name.push c.toLower, attributes⟩
  | attribute (name : String) (attributes : List Attribute) :
    Gains c .beforeAttributeName ⟨name, attributes⟩ ⟨name, attributes ++ [⟨c.toLower.toString, []⟩]⟩
  | attributeName (name : String) (earlier : List Attribute) (last : Attribute) :
    Gains c .attributeName ⟨name, earlier ++ [last]⟩
      ⟨name, earlier ++ [{ last with name := last.name.push c.toLower }]⟩
  | value {state : LexerState} (hstate : state.isInAttributeValue = true) (name : String)
      (earlier : List Attribute) (last : Attribute) :
    Gains c state ⟨name, earlier ++ [last]⟩ ⟨name, earlier ++ [last.pushChar c]⟩

/-- A token in a state, and the same in the next state with one character more.  Of a comment,
the dashes that a state holds back count as written. -/
inductive Token.Gains (c : Char) (state state' : LexerState) : Token → Token → Prop
  | tag {token : Token} {tag tag' : Tag} (htoken : token.tag? = some tag)
      (htag : tag.Gains c state tag') : Gains c state state' token (token.modifyTag fun _ => tag')
  | comment {content content' : String}
      (hcontent : content' ++ Lexer.heldDashes state' =
        content ++ Lexer.heldDashes state ++ c.toString) :
    Gains c state state' (.comment content) (.comment content')

theorem Token.Begins.tag? {token : Token} {tag : Tag} (h : token.Begins tag) :
    token.tag? = some tag := by
  cases h <;> rfl

theorem Token.modifyTag_of_tag? {token : Token} {tag : Tag} (h : token.tag? = some tag)
    (change : Tag → Tag) : token.modifyTag change = token.modifyTag fun _ => change tag := by
  cases token with
  | text content | comment content => cases h
  | startTag start | endTag start =>
    cases h
    rfl

namespace Turn

/-- A turn that writes its character down: nothing is completed, and the token in hand has the
character. -/
structure Writes (c : Char) (state : LexerState) (token : Token) (t : Turn) : Prop where
  gains : ∃ token' ∈ t.pending, token.Gains c state t.state token'
  completed : t.completed = none
  read : t.again = false

variable {c : Char} {state : LexerState} {token : Token} {tag : Tag}

/-- A change of the tag in hand writes the character down if it does so in the tag. -/
theorem writes_onTag {change : Tag → Tag} (htoken : token.tag? = some tag)
    (htag : tag.Gains c state (change tag)) (next : LexerState) :
    (goTo next (onTag change (some token))).Writes c state token := by
  refine ⟨⟨_, rfl, ?_⟩, rfl, rfl⟩
  rw [Token.modifyTag_of_tag? htoken change]
  exact .tag htoken htag

/-- **A character of a tag is written down.** -/
theorem writes_take_of_finishes {kept : List Attribute} (htoken : token.tag? = some tag)
    (hfinishes : state.Finishes kept tag.attributes) (hown : state.owns c = true) :
    (take state (some token) c).Writes c state token := by
  obtain ⟨name, attributes⟩ := tag
  cases state with
  | tagName =>
    simp only [LexerState.owns, Bool.and_eq_true, Bool.not_eq_true', bne_iff_ne] at hown
    simp only [take, tagName, hown, if_false, Bool.false_eq_true]
    exact writes_onTag htoken (.name name attributes) _
  | beforeAttributeName =>
    simp only [LexerState.owns, Bool.and_eq_true, Bool.not_eq_true', bne_iff_ne] at hown
    simp only [take, beforeAttributeName, hown, if_false, Bool.false_eq_true]
    exact writes_onTag htoken (.attribute name attributes) _
  | attributeName =>
    simp only [LexerState.owns, Bool.and_eq_true, Bool.not_eq_true', bne_iff_ne] at hown
    simp only [take, attributeName, hown, if_false, Bool.false_eq_true]
    obtain ⟨earlier, last, rfl, -, -⟩ := hfinishes
    refine writes_onTag htoken ?_ _
    rw [Tag.addToAttributeName, Tag.modifyLast_append]
    exact .attributeName name earlier last
  | beforeAttributeValue | attributeValueDoubleQuoted | attributeValueSingleQuoted
  | attributeValueUnquoted =>
    simp only [LexerState.owns, Bool.and_eq_true, Bool.not_eq_true', bne_iff_ne] at hown
    simp only [take, beforeAttributeValue, quotedValue, unquotedValue, hown, if_false,
      Bool.false_eq_true]
    obtain ⟨earlier, last, rfl, -⟩ := hfinishes
    refine writes_onTag htoken ?_ _
    rw [Tag.addToAttributeValue, Tag.modifyLast_append]
    exact .value rfl name earlier last
  | afterAttributeValueQuoted | selfClosingStartTag => cases hown
  | _ => exact hfinishes.elim

/-- Text that is added to a comment with the dashes before it, which so are held back no
more. -/
theorem writes_comment (content : String) (c : Char) (state : LexerState) :
    (comment (Lexer.heldDashes state) (some (.comment content)) c).Writes c state
      (.comment content) := by
  refine ⟨⟨_, rfl, .comment ?_⟩, rfl, rfl⟩
  have hnone : Lexer.heldDashes (comment (Lexer.heldDashes state) (some (.comment content)) c).state
      = "" := rfl
  rw [hnone]
  apply String.toList_inj.mp
  simp

/-- A dash that is held back counts as written. -/
theorem writes_held (content : String) {state next : LexerState}
    (hheld : Lexer.heldDashes next = Lexer.heldDashes state ++ "-") :
    (goTo next (some (.comment content))).Writes '-' state (.comment content) := by
  refine ⟨⟨_, rfl, .comment ?_⟩, rfl, rfl⟩
  rw [goTo, hheld, String.append_assoc]
  rfl

/-- **A character of a comment is written down**, or is a dash that is held back. -/
theorem writes_take_of_isInComment (content : String) (hstate : state.isInComment = true)
    (hown : state.owns c = true) :
    (take state (some (.comment content)) c).Writes c state (.comment content) := by
  by_cases hdash : c = '-'
  · subst hdash
    cases state with
    | commentStart | commentStartDash | comment | commentEndDash =>
      exact writes_held content rfl
    | commentEnd =>
      refine ⟨⟨_, rfl, .comment ?_⟩, rfl, rfl⟩
      apply String.toList_inj.mp
      simp [take, commentEnd, goTo, Lexer.heldDashes]
    | _ => cases hstate
  · cases state with
    | commentStart =>
      have hclose : c ≠ '>' := by simpa [LexerState.owns] using hown
      simp only [take, commentStart, hdash, hclose, if_false]
      exact writes_comment content c .commentStart
    | commentStartDash =>
      have hclose : c ≠ '>' := by simpa [LexerState.owns] using hown
      simp only [take, commentStartDash, hdash, hclose, if_false]
      exact writes_comment content c .commentStartDash
    | comment =>
      simp only [take, insideComment, hdash, if_false]
      exact writes_comment content c .comment
    | commentEndDash =>
      simp only [take, commentEndDash, hdash, if_false]
      exact writes_comment content c .commentEndDash
    | commentEnd =>
      have hclose : c ≠ '>' := by simpa [LexerState.owns] using hown
      simp only [take, commentEnd, hdash, hclose, if_false]
      exact writes_comment content c .commentEnd
    | _ => cases hstate

end Turn

/-! ### Every reachable lexer -/

/-- What a lexer has in hand, and that nothing which is put into it is lost. -/
structure Lexer.InHand (l : Lexer) : Prop where
  /-- Between nodes there is nothing, or a text that is not empty. -/
  text : l.state = .data → ∀ token ∈ l.pending, ∃ content, token = .text content ∧ content ≠ ""
  /-- Where it is open which markup comes, there is nothing. -/
  opening : l.state = .tagOpen ∨ l.state = .endTagOpen ∨ l.state = .markupDeclaration →
    l.pending = none
  /-- Inside a comment there is a comment, and nothing in it as long as a bracket would end it
  at once. -/
  comment : l.state.isInComment = true → ∃ content, l.pending = some (.comment content) ∧
    (l.state = .commentStart ∨ l.state = .commentStartDash → content = "")
  /-- Inside a tag there is an end tag, or a start tag that does not end itself.  After an
  attribute has begun there is one, and before its value has begun it has none. -/
  tag : l.state.isInTag = true → ∃ token tag, l.pending = some token ∧ token.Begins tag ∧
    (l.state = .attributeName ∨ l.state.isInAttributeValue = true ∨
      l.state = .afterAttributeValueQuoted → tag.attributes ≠ []) ∧
    (l.state = .attributeName ∨ l.state = .beforeAttributeValue →
      ∀ last ∈ tag.attributes.getLast?, last.value = [])
  /-- A comment takes every text. -/
  folds : l.state.isInComment = true → ∀ content, (l.foldIntoComment? content).isSome = true
  /-- A value in a start tag takes every expression. -/
  addsToValue : l.state.isInAttributeValue = true → ∀ start, l.pending = some (.startTag start) →
    ∀ m, (start.toTag.addMustacheToAttributeValue? m).isSome = true
  /-- A character of a name, a value or a comment is written down. -/
  writes : ∀ c, l.state.owns c = true → ∃ token, l.pending = some token ∧
    (Turn.take l.state l.pending c).Writes c l.state token

namespace LexerState

variable {state : LexerState} {attributes kept : List Attribute}

theorem Finishes.ne_nil (h : state.Finishes kept attributes)
    (hstate : state = .attributeName ∨ state.isInAttributeValue = true ∨
      state = .afterAttributeValueQuoted) : attributes ≠ [] := by
  rcases hstate with rfl | hvalue | rfl
  · obtain ⟨earlier, last, rfl, -⟩ := h
    simp
  · cases state with
    | beforeAttributeValue | attributeValueDoubleQuoted | attributeValueSingleQuoted
    | attributeValueUnquoted =>
      obtain ⟨earlier, last, rfl, -⟩ := h
      simp
    | _ => cases hvalue
  · exact h.2

theorem Finishes.value_eq_nil (h : state.Finishes kept attributes)
    (hstate : state = .attributeName ∨ state = .beforeAttributeValue) :
    ∀ last ∈ attributes.getLast?, last.value = [] := by
  intro found hfound
  rcases hstate with rfl | rfl <;>
  · obtain ⟨earlier, last, rfl, -, hempty⟩ := h
    rw [List.getLast?_concat] at hfound
    rw [← Option.mem_some_iff.mp hfound]
    exact hempty

/-- What is no part of a tag or of a comment is no part of a name, a value or a comment. -/
theorem isInTag_or_isInComment_of_owns {c : Char} (h : state.owns c = true) :
    state.isInTag = true ∨ state.isInComment = true := by
  cases state <;> first | exact .inl rfl | exact .inr rfl | cases h

end LexerState

/-- **A lexer whose token fits its state loses nothing**, and its state says which token that
is. -/
theorem Lexer.Fits.inHand {l : Lexer} (h : l.Fits []) : l.InHand where
  text hstate := by
    rw [Lexer.Fits, hstate] at h
    exact h.of_data
  opening hstate := LexerState.Fits.of_opening h hstate
  comment hstate := LexerState.Fits.of_isInComment h hstate
  tag hstate := by
    obtain ⟨token, tag, hpending, htoken, hfinishes⟩ := LexerState.Fits.of_isInTag h hstate
    exact ⟨token, tag, hpending, htoken, hfinishes.ne_nil, hfinishes.value_eq_nil⟩
  folds hstate content := by
    obtain ⟨found, hpending, -⟩ := LexerState.Fits.of_isInComment h hstate
    simp [foldIntoComment?, hstate, hpending]
  addsToValue hstate start hpending m := by
    rw [Lexer.Fits, hpending] at h
    have hne := h.of_startTag.2.2.ne_nil (.inr (.inl hstate))
    simp [Tag.addMustacheToAttributeValue?, hne]
  writes c hown := by
    rcases LexerState.isInTag_or_isInComment_of_owns hown with hstate | hstate
    · obtain ⟨token, tag, hpending, htoken, hfinishes⟩ := LexerState.Fits.of_isInTag h hstate
      rw [hpending]
      exact ⟨token, rfl, Turn.writes_take_of_finishes htoken.tag? hfinishes hown⟩
    · obtain ⟨content, hpending, -⟩ := LexerState.Fits.of_isInComment h hstate
      rw [hpending]
      exact ⟨.comment content, rfl, Turn.writes_take_of_isInComment content hstate hown⟩

/-- **The state of a lexer says what it has in hand**, at every moment of whatever is done to
it. -/
theorem Lexer.reachable_inHand {l : Lexer} (h : l.Reachable) : l.InHand :=
  h.fits.inHand

/-- An expression begins a value, and then the tag is left half read by the end of a block. -/
theorem Lexer.reachable_inHand_of_value :
    ∃ l : Lexer, l = ⟨.attributeValueUnquoted,
        some (.startTag ⟨⟨"p", [⟨"a", [.mustache ⟨⟨"x", [], []⟩, true⟩]⟩]⟩, false, []⟩), []⟩ ∧
      l.Reachable ∧ l.InHand := by
  have hfed : Reachable ((Assembly.fresh 1).apply (.feed "<p a=")).assembly.lexer :=
    .apply (a := Assembly.fresh 1) .fresh _
  have hplaced := hfed.apply (.mustache ⟨⟨"x", [], []⟩, true⟩)
  have hclosed := hplaced.apply .closeProgram
  refine ⟨_, ?_, hclosed, reachable_inHand hclosed⟩
  cbv

end TemplateTree
