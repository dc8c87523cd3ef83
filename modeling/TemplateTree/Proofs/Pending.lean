/-
What the lexer has in hand.

The state of a lexer and its token under construction are two fields, and a turn that finds
the wrong kind of token in hand goes on without a word.  It never does: the state says
which kind of token there is, and a tag in hand is well formed as far as it has been read.
`Fits` is this invariant, and it is kept by one lemma for each kind of turn.

It also says which attributes are finished.  Only the last attribute of a tag can change,
and in some states not even that one, so `kept`, the finished attributes, are the first
ones of the token that the tag becomes.
-/
import TemplateTree.Proofs.Placing

namespace TemplateTree

/-! ### Well-formed tokens -/

/-- An attribute as it is read: in its value no text is empty, and no two are side by
side. -/
structure Attribute.WellFormed (a : Attribute) : Prop where
  name : Lexer.IsAttributeName a.name
  value : .text "" ∉ a.value
  apart : a.value.IsChain Fragment.Apart

/-- A tag as it is read. -/
structure Tag.WellFormed (t : Tag) : Prop where
  name : Lexer.IsTagName t.name
  attributes : ∀ a ∈ t.attributes, a.WellFormed

/-- A token as it is read. -/
def Token.WellFormed : Token → Prop
  | .text content => content ≠ ""
  | .comment _ => True
  | .startTag tag => tag.toTag.WellFormed
  | .endTag tag => tag.WellFormed

/-! ### Names -/

theorem isAsciiLetter_eq_isAlpha (c : Char) : isAsciiLetter c = c.isAlpha := by
  simp [isAsciiLetter, Char.isAlpha, Char.isUpper, Char.isLower, Char.le_def, Bool.or_comm]

theorem isLower_toLower_of_isAsciiLetter {c : Char} (h : isAsciiLetter c = true) :
    c.toLower.isLower = true := by
  rwa [Char.isLower_toLower_eq_isAlpha, ← isAsciiLetter_eq_isAlpha]

/-- A letter that is lowered is a lower letter, and any other character stays. -/
theorem toLower_cases (c : Char) : c.toLower.isLower = true ∨ c.isUpper = false ∧ c.toLower = c := by
  by_cases hupper : c.isUpper = true
  · refine Or.inl ?_
    rw [Char.isLower_toLower_eq_isAlpha, Char.isAlpha, hupper, Bool.true_or]
  · exact Or.inr ⟨by simpa using hupper, Char.toLower_eq_of_not_isUpper hupper⟩

/-- What ends no name goes on one, in its lower form. -/
theorem isNameChar_toLower {c : Char} (hspace : isMarkupSpace c = false) (hslash : c ≠ '/')
    (hclose : c ≠ '>') : isNameChar c.toLower = true := by
  rcases toLower_cases c with hlower | ⟨hupper, hsame⟩
  · exact (Lexer.letter_of_isLower hlower).2
  · rw [hsame]
    exact isNameChar_iff.mpr ⟨hspace, hslash, hclose, hupper⟩

theorem toLower_ne_equals {c : Char} (h : c ≠ '=') : c.toLower ≠ '=' := by
  rcases toLower_cases c with hlower | ⟨-, hsame⟩
  · exact ne_of_apply_ne Char.isLower (by simp [hlower])
  · rw [hsame]
    exact h

theorem Lexer.isTagName_singleton {c : Char} (h : isAsciiLetter c = true) :
    IsTagName (asciiLower c.toString) :=
  ⟨c.toLower, [], by simp, isLower_toLower_of_isAsciiLetter h, by simp⟩

theorem Lexer.IsTagName.push {name : String} (h : IsTagName name) {c : Char}
    (hc : isNameChar c = true) : IsTagName (name.push c) := by
  obtain ⟨first, rest, hname, hfirst, hrest⟩ := h
  refine ⟨first, rest ++ [c], by simp [hname], hfirst, ?_⟩
  simpa [or_imp, forall_and] using ⟨hrest, hc⟩

theorem Lexer.isAttributeName_singleton {c : Char} (hc : isNameChar c = true) :
    IsAttributeName c.toString :=
  ⟨c, [], by simp, hc, by simp⟩

theorem Lexer.IsAttributeName.push {name : String} (h : IsAttributeName name) {c : Char}
    (hc : isNameChar c = true) (hequals : c ≠ '=') : IsAttributeName (name.push c) := by
  obtain ⟨first, rest, hname, hfirst, hrest⟩ := h
  refine ⟨first, rest ++ [c], by simp [hname], hfirst, ?_⟩
  intro d hd
  rcases List.mem_append.mp hd with hold | hnew
  · exact hrest d hold
  · rw [List.mem_singleton.mp hnew]
    exact ⟨hc, hequals⟩

/-! ### Values -/

/-- Literal text after literal text is one fragment with it. -/
theorem Fragment.join_append_text (content last : String) (earlier : List Fragment) :
    join content (earlier ++ [.text last]) = earlier ++ [.text (last ++ content)] := by
  induction earlier with
  | nil => rfl
  | cons f rest ih =>
    cases rest with
    | nil => cases f <;> rfl
    | cons g more =>
      rw [List.cons_append, List.cons_append, join_cons_cons, ← List.cons_append, ih]
      rfl

/-- Literal text goes on the last fragment, or becomes the last one. -/
theorem Fragment.join_cases (content : String) (value : List Fragment) :
    (∃ earlier last, value = earlier ++ [.text last] ∧
      join content value = earlier ++ [.text (last ++ content)]) ∨
    (∀ f ∈ value.getLast?, f.isText = false) ∧ join content value = value ++ [.text content] := by
  rcases List.eq_nil_or_concat' value with rfl | ⟨earlier, last, rfl⟩
  · exact Or.inr ⟨by simp, rfl⟩
  cases last with
  | text last => exact Or.inl ⟨earlier, last, rfl, join_append_text content last earlier⟩
  | mustache m =>
    have hends : ∀ f ∈ (earlier ++ [mustache m]).getLast?, f.isText = false := by
      intro f hf
      rw [List.getLast?_concat, Option.mem_some_iff] at hf
      rw [← hf]
      rfl
    exact Or.inr ⟨hends, join_of_last content _ hends⟩

namespace Attribute.WellFormed

variable {a : Attribute}

theorem pushMustache (h : a.WellFormed) (m : Mustache) : (a.pushMustache m).WellFormed := by
  refine ⟨h.name, by simp [Attribute.pushMustache, h.value], ?_⟩
  refine List.isChain_append.mpr ⟨h.apart, .singleton _, ?_⟩
  intro f _ g hg
  rw [← Option.mem_some_iff.mp hg]
  simp [Fragment.Apart, Fragment.isText, Fragment.text?]

theorem pushText (h : a.WellFormed) {content : String} (hne : content ≠ "") :
    (a.pushText content).WellFormed := by
  obtain ⟨hname, hempty, hapart⟩ := h
  rw [Attribute.pushText, if_neg hne]
  rcases Fragment.join_cases content a.value with ⟨earlier, last, hvalue, hjoin⟩ | ⟨hends, hjoin⟩
  · rw [hjoin]
    rw [hvalue] at hempty hapart
    obtain ⟨hearlier, -, hlast⟩ := List.isChain_append.mp hapart
    have hjoined : last ++ content ≠ "" := fun heq => hne (String.append_eq_empty_iff.mp heq).2
    refine ⟨hname, ?_, List.isChain_append.mpr ⟨hearlier, .singleton _, ?_⟩⟩
    · rw [List.mem_append, not_or] at hempty ⊢
      exact ⟨hempty.1, by simpa using Ne.symm hjoined⟩
    · intro f hf g hg
      rw [← Option.mem_some_iff.mp hg]
      exact hlast f hf (.text last) (by simp)
  · rw [hjoin]
    refine ⟨hname, ?_, List.isChain_append.mpr ⟨hapart, .singleton _, ?_⟩⟩
    · rw [List.mem_append, not_or]
      exact ⟨hempty, by simpa using Ne.symm hne⟩
    · intro f hf g _ hboth
      simp [hends f hf] at hboth

end Attribute.WellFormed

namespace Tag.WellFormed

variable {t : Tag} {c : Char}

theorem addToName (h : t.WellFormed) (hspace : isMarkupSpace c = false) (hslash : c ≠ '/')
    (hclose : c ≠ '>') : (t.addToName c).WellFormed :=
  ⟨h.name.push (isNameChar_toLower hspace hslash hclose), h.attributes⟩

theorem startAttribute (h : t.WellFormed) (hspace : isMarkupSpace c = false) (hslash : c ≠ '/')
    (hclose : c ≠ '>') : (t.startAttribute c).WellFormed := by
  refine ⟨h.name, ?_⟩
  intro a ha
  rcases List.mem_append.mp ha with hold | hnew
  · exact h.attributes a hold
  · rw [List.mem_singleton.mp hnew]
    exact ⟨Lexer.isAttributeName_singleton (isNameChar_toLower hspace hslash hclose), by simp,
      .nil⟩

/-- A change of the last attribute that keeps it well formed keeps the tag so. -/
theorem modifyLast (h : t.WellFormed) {change : Attribute → Attribute}
    (hchange : ∀ a : Attribute, a.WellFormed → (change a).WellFormed) :
    Tag.WellFormed { t with attributes := Tag.modifyLast change t.attributes } := by
  obtain ⟨hname, hattributes⟩ := h
  refine ⟨hname, ?_⟩
  rcases List.eq_nil_or_concat' t.attributes with hnil | ⟨earlier, last, hlast⟩
  · simp [hnil, Tag.modifyLast]
  · rw [hlast] at hattributes
    simp only [hlast, modifyLast_append]
    intro a ha
    rcases List.mem_append.mp ha with hold | hnew
    · exact hattributes a (by simp [hold])
    · rw [List.mem_singleton.mp hnew]
      exact hchange last (hattributes last (by simp))

theorem addToAttributeName (h : t.WellFormed) (hspace : isMarkupSpace c = false)
    (hslash : c ≠ '/') (hclose : c ≠ '>') (hequals : c ≠ '=') :
    (t.addToAttributeName c).WellFormed :=
  h.modifyLast fun _ ha => ⟨ha.name.push (isNameChar_toLower hspace hslash hclose)
    (toLower_ne_equals hequals), ha.value, ha.apart⟩

theorem addToAttributeValue (h : t.WellFormed) (c : Char) : (t.addToAttributeValue c).WellFormed :=
  h.modifyLast fun _ ha => ha.pushText (by simp)

theorem named (h : isAsciiLetter c = true) : (Tag.named c.toString).WellFormed :=
  ⟨Lexer.isTagName_singleton h, by simp [Tag.named]⟩

end Tag.WellFormed

/-! ### What fits a state -/

/-- A token that is a tag under construction: an end tag, or a start tag that does not end
itself so far. -/
inductive Token.Begins : Token → Tag → Prop
  | startTag (tag : Tag) (modifiers : List Mustache) :
    Begins (.startTag { toTag := tag, modifiers }) tag
  | endTag (tag : Tag) : Begins (.endTag tag) tag

namespace LexerState

/-- In a state inside a tag, the attributes `kept` are finished.  While a name or a value is
read, and right before a value, there is another attribute that is not. -/
def Finishes (kept attributes : List Attribute) : LexerState → Prop
  | tagName | beforeAttributeName | selfClosingStartTag => kept <+: attributes
  | afterAttributeValueQuoted => kept <+: attributes ∧ attributes ≠ []
  | attributeName | beforeAttributeValue =>
    ∃ earlier last, attributes = earlier ++ [last] ∧ kept <+: earlier ∧ last.value = []
  | attributeValueDoubleQuoted | attributeValueSingleQuoted | attributeValueUnquoted =>
    ∃ earlier last, attributes = earlier ++ [last] ∧ kept <+: earlier
  | _ => False

/-- The token under construction that a state may have.  Outside of tags there are no
attributes to finish. -/
inductive Fits : List Attribute → LexerState → Option Token → Prop
  | data : Fits [] data none
  | text {content : String} (hne : content ≠ "") : Fits [] data (some (.text content))
  | tagOpen : Fits [] tagOpen none
  | endTagOpen : Fits [] endTagOpen none
  | markupDeclaration : Fits [] markupDeclaration none
  | commentStart : Fits [] commentStart (some (.comment ""))
  | commentStartDash : Fits [] commentStartDash (some (.comment ""))
  | comment (content : String) : Fits [] comment (some (.comment content))
  | commentEndDash (content : String) : Fits [] commentEndDash (some (.comment content))
  | commentEnd (content : String) : Fits [] commentEnd (some (.comment content))
  | tag {kept : List Attribute} {state : LexerState} {token : Token} {tag : Tag}
      (htoken : token.Begins tag) (htag : tag.WellFormed)
      (hstate : state.Finishes kept tag.attributes) : Fits kept state (some token)

end LexerState

/-! ### Turns -/

theorem LexerState.Finishes.isPrefix {state : LexerState} {kept attributes : List Attribute}
    (h : state.Finishes kept attributes) : kept <+: attributes := by
  cases state with
  | tagName | beforeAttributeName | selfClosingStartTag => exact h
  | afterAttributeValueQuoted => exact h.1
  | attributeName | beforeAttributeValue =>
    obtain ⟨earlier, last, rfl, hkept, -⟩ := h
    exact hkept.trans (List.prefix_append earlier [last])
  | attributeValueDoubleQuoted | attributeValueSingleQuoted | attributeValueUnquoted =>
    obtain ⟨earlier, last, rfl, hkept⟩ := h
    exact hkept.trans (List.prefix_append earlier [last])
  | _ => exact h.elim

theorem LexerState.Finishes.isInTag {state : LexerState} {kept attributes : List Attribute}
    (h : state.Finishes kept attributes) : state.isInTag = true := by
  cases state <;> first | rfl | exact h.elim

/-- Outside of tags there is nothing to finish. -/
theorem LexerState.Fits.kept_eq_nil {state : LexerState} {kept : List Attribute}
    {pending : Option Token} (h : state.Fits kept pending) (hstate : state.isInTag = false) :
    kept = [] := by
  cases h with
  | tag htoken htag hfinishes => simp [hfinishes.isInTag] at hstate
  | _ => rfl

theorem Token.Begins.modifyTag {token : Token} {tag : Tag} (h : token.Begins tag)
    (change : Tag → Tag) : (token.modifyTag change).Begins (change tag) := by
  cases h with
  | startTag tag modifiers => exact .startTag (change tag) modifiers
  | endTag tag => exact .endTag (change tag)

namespace Turn

/-- A turn after which the token under construction fits.  A token that it completed is well
formed, and if it is a tag, it has the attributes that were finished. -/
structure Fits (kept : List Attribute) (t : Turn) : Prop where
  pending : t.completed = none → t.state.Fits kept t.pending
  completed : ∀ token ∈ t.completed, t.state.Fits [] t.pending ∧ token.WellFormed ∧
    ∀ tag ∈ token.tag?, kept <+: tag.attributes

variable {kept : List Attribute} {state : LexerState} {pending : Option Token} {token : Token}
  {tag : Tag}

theorem fits_goTo (h : state.Fits kept pending) : (goTo state pending).Fits kept :=
  ⟨fun _ => h, by simp [goTo]⟩

theorem fits_handTo (h : state.Fits kept pending) : (handTo state pending).Fits kept :=
  ⟨fun _ => h, by simp [handTo]⟩

theorem fits_complete (hstate : state.Fits [] none) (htoken : token.WellFormed)
    (hkept : ∀ tag ∈ token.tag?, kept <+: tag.attributes) :
    (complete state (some token)).Fits kept := by
  refine ⟨by simp [complete], ?_⟩
  intro token' hmem
  rw [← Option.mem_some_iff.mp hmem]
  exact ⟨hstate, htoken, hkept⟩

/-- A tag that is complete is well formed, whether it ends itself or not. -/
theorem fits_complete_tag (htoken : token.Begins tag) (htag : tag.WellFormed)
    (hkept : kept <+: tag.attributes) : (complete .data (some token)).Fits kept := by
  cases htoken with
  | startTag tag modifiers => exact fits_complete .data htag (by simpa [Token.tag?] using hkept)
  | endTag tag => exact fits_complete .data htag (by simpa [Token.tag?] using hkept)

theorem fits_complete_closeSelf (htoken : token.Begins tag) (htag : tag.WellFormed)
    (hkept : kept <+: tag.attributes) : (complete .data (closeSelf (some token))).Fits kept := by
  cases htoken with
  | startTag tag modifiers => exact fits_complete .data htag (by simpa [Token.tag?] using hkept)
  | endTag tag => exact fits_complete .data htag (by simpa [Token.tag?] using hkept)

/-! #### Text and the openings of markup -/

theorem fits_data (h : LexerState.data.Fits kept pending) (c : Char) :
    (data pending c).Fits kept := by
  unfold data
  cases h with
  | data =>
    split
    · exact ⟨fun _ => .tagOpen, by simp [complete]⟩
    · exact fits_goTo (.text (by simp))
  | text hne =>
    split
    · exact fits_complete .tagOpen hne (by simp [Token.tag?])
    · exact fits_goTo (.text (by simp))
  | tag _ _ hstate => exact hstate.elim

theorem fits_tagOpen (h : LexerState.tagOpen.Fits kept pending) (c : Char) :
    (tagOpen pending c).Fits kept := by
  unfold tagOpen
  cases h with
  | tagOpen =>
    split
    · exact fits_goTo .markupDeclaration
    split
    · exact fits_goTo .endTagOpen
    split
    · exact fits_goTo .tagOpen
    split
    · rename_i hletter
      exact fits_goTo (.tag (.startTag _ _) (.named hletter) (List.nil_prefix))
    · exact fits_handTo (.text (by decide))
  | tag _ _ hstate => exact hstate.elim

theorem fits_endTagOpen (h : LexerState.endTagOpen.Fits kept pending) (c : Char) :
    (endTagOpen pending c).Fits kept := by
  unfold endTagOpen
  cases h with
  | endTagOpen =>
    split
    · rename_i hletter
      exact fits_goTo (.tag (.endTag _) (.named hletter) (List.nil_prefix))
    split
    · exact fits_goTo .data
    · exact fits_goTo .endTagOpen
  | tag _ _ hstate => exact hstate.elim

theorem fits_markupDeclaration (h : LexerState.markupDeclaration.Fits kept pending) (c : Char) :
    (markupDeclaration pending c).Fits kept := by
  unfold markupDeclaration
  cases h with
  | markupDeclaration =>
    split
    · exact fits_goTo .data
    · exact fits_goTo .markupDeclaration
  | tag _ _ hstate => exact hstate.elim

/-! #### Comments -/

theorem fits_comment (held : String) (content : String) (c : Char) :
    (comment held (some (.comment content)) c).Fits [] :=
  fits_goTo (.comment _)

theorem fits_complete_comment (content : String) :
    (complete .data (some (.comment content))).Fits [] :=
  fits_complete .data trivial (by simp [Token.tag?])

theorem fits_commentStart (h : LexerState.commentStart.Fits kept pending) (c : Char) :
    (commentStart pending c).Fits kept := by
  unfold commentStart
  cases h with
  | commentStart =>
    split
    · exact fits_goTo .commentStartDash
    split
    · exact fits_complete_comment _
    · exact fits_comment _ _ c
  | tag _ _ hstate => exact hstate.elim

theorem fits_commentStartDash (h : LexerState.commentStartDash.Fits kept pending) (c : Char) :
    (commentStartDash pending c).Fits kept := by
  unfold commentStartDash
  cases h with
  | commentStartDash =>
    split
    · exact fits_goTo (.commentEnd _)
    split
    · exact fits_complete_comment _
    · exact fits_comment _ _ c
  | tag _ _ hstate => exact hstate.elim

theorem fits_insideComment (h : LexerState.comment.Fits kept pending) (c : Char) :
    (insideComment pending c).Fits kept := by
  unfold insideComment
  cases h with
  | comment content =>
    split
    · exact fits_goTo (.commentEndDash _)
    · exact fits_comment _ _ c
  | tag _ _ hstate => exact hstate.elim

theorem fits_commentEndDash (h : LexerState.commentEndDash.Fits kept pending) (c : Char) :
    (commentEndDash pending c).Fits kept := by
  unfold commentEndDash
  cases h with
  | commentEndDash content =>
    split
    · exact fits_goTo (.commentEnd _)
    · exact fits_comment _ _ c
  | tag _ _ hstate => exact hstate.elim

theorem fits_commentEnd (h : LexerState.commentEnd.Fits kept pending) (c : Char) :
    (commentEnd pending c).Fits kept := by
  unfold commentEnd
  cases h with
  | commentEnd content =>
    split
    · exact fits_complete_comment _
    split
    · exact fits_goTo (.commentEnd _)
    · exact fits_comment _ _ c
  | tag _ _ hstate => exact hstate.elim

/-! #### Tags -/

theorem fits_tagName (htoken : token.Begins tag) (htag : tag.WellFormed)
    (hkept : kept <+: tag.attributes) (c : Char) : (tagName (some token) c).Fits kept := by
  unfold tagName
  split
  · exact fits_goTo (.tag htoken htag hkept)
  split
  · exact fits_goTo (.tag htoken htag hkept)
  split
  · exact fits_complete_tag htoken htag hkept
  · rename_i hspace hslash hclose
    exact fits_goTo (.tag (htoken.modifyTag _)
      (htag.addToName (by simpa using hspace) hslash hclose) hkept)

theorem fits_beforeAttributeName (htoken : token.Begins tag) (htag : tag.WellFormed)
    (hkept : kept <+: tag.attributes) (c : Char) :
    (beforeAttributeName (some token) c).Fits kept := by
  unfold beforeAttributeName
  split
  · exact fits_goTo (.tag htoken htag hkept)
  split
  · exact fits_goTo (.tag htoken htag hkept)
  split
  · exact fits_complete_tag htoken htag hkept
  · rename_i hspace hslash hclose
    exact fits_goTo (.tag (htoken.modifyTag _)
      (htag.startAttribute (by simpa using hspace) hslash hclose) ⟨_, _, rfl, hkept, rfl⟩)

theorem fits_attributeName (htoken : token.Begins tag) (htag : tag.WellFormed)
    (hfinishes : LexerState.attributeName.Finishes kept tag.attributes) (c : Char) :
    (attributeName (some token) c).Fits kept := by
  unfold attributeName
  split
  · exact fits_goTo (.tag htoken htag hfinishes.isPrefix)
  split
  · exact fits_goTo (.tag htoken htag hfinishes.isPrefix)
  split
  · exact fits_goTo (.tag htoken htag hfinishes)
  split
  · exact fits_complete_tag htoken htag hfinishes.isPrefix
  · rename_i hspace hslash hequals hclose
    obtain ⟨earlier, last, hlast, hkept, hempty⟩ := hfinishes
    refine fits_goTo (.tag (htoken.modifyTag _)
      (htag.addToAttributeName (by simpa using hspace) hslash hclose hequals) ?_)
    refine ⟨earlier, { last with name := last.name.push c.toLower }, ?_, hkept, hempty⟩
    rw [Tag.addToAttributeName, hlast, Tag.modifyLast_append]

/-- A character of a value is added to the attribute that is not finished. -/
theorem fits_addToAttributeValue {c : Char} (htoken : token.Begins tag) (htag : tag.WellFormed)
    (hstate : ∀ attributes, (∃ earlier last, attributes = earlier ++ [last] ∧ kept <+: earlier) →
      state.Finishes kept attributes)
    (hfinishes : ∃ earlier last, tag.attributes = earlier ++ [last] ∧ kept <+: earlier) :
    (goTo state (onTag (·.addToAttributeValue c) (some token))).Fits kept := by
  obtain ⟨earlier, last, hlast, hkept⟩ := hfinishes
  refine fits_goTo (.tag (htoken.modifyTag _) (htag.addToAttributeValue c) (hstate _ ?_))
  refine ⟨earlier, last.pushChar c, ?_, hkept⟩
  rw [Tag.addToAttributeValue, hlast, Tag.modifyLast_append]

theorem fits_beforeAttributeValue (htoken : token.Begins tag) (htag : tag.WellFormed)
    (hfinishes : LexerState.beforeAttributeValue.Finishes kept tag.attributes) (c : Char) :
    (beforeAttributeValue (some token) c).Fits kept := by
  have hunfinished : ∃ earlier last, tag.attributes = earlier ++ [last] ∧ kept <+: earlier := by
    obtain ⟨earlier, last, hlast, hkept, -⟩ := hfinishes
    exact ⟨earlier, last, hlast, hkept⟩
  unfold beforeAttributeValue
  split
  · exact fits_goTo (.tag htoken htag hfinishes)
  split
  · exact fits_goTo (.tag htoken htag hunfinished)
  split
  · exact fits_goTo (.tag htoken htag hunfinished)
  split
  · exact fits_complete_tag htoken htag hfinishes.isPrefix
  · exact fits_addToAttributeValue htoken htag (fun _ h => h) hunfinished

theorem fits_quotedValue {quote c : Char} (htoken : token.Begins tag) (htag : tag.WellFormed)
    (hstate : ∀ attributes, (∃ earlier last, attributes = earlier ++ [last] ∧ kept <+: earlier) →
      state.Finishes kept attributes)
    (hfinishes : ∃ earlier last, tag.attributes = earlier ++ [last] ∧ kept <+: earlier) :
    (quotedValue quote state (some token) c).Fits kept := by
  unfold quotedValue
  split
  · refine fits_goTo (.tag htoken htag ⟨(hstate _ hfinishes).isPrefix, ?_⟩)
    obtain ⟨earlier, last, hlast, -⟩ := hfinishes
    simp [hlast]
  · exact fits_addToAttributeValue htoken htag hstate hfinishes

theorem fits_unquotedValue (htoken : token.Begins tag) (htag : tag.WellFormed)
    (hfinishes : LexerState.attributeValueUnquoted.Finishes kept tag.attributes) (c : Char) :
    (unquotedValue (some token) c).Fits kept := by
  unfold unquotedValue
  split
  · exact fits_goTo (.tag htoken htag hfinishes.isPrefix)
  split
  · exact fits_complete_tag htoken htag hfinishes.isPrefix
  · exact fits_addToAttributeValue htoken htag (fun _ h => h) hfinishes

theorem fits_afterQuotedValue (htoken : token.Begins tag) (htag : tag.WellFormed)
    (hkept : kept <+: tag.attributes) (c : Char) : (afterQuotedValue (some token) c).Fits kept := by
  unfold afterQuotedValue
  split
  · exact fits_goTo (.tag htoken htag hkept)
  split
  · exact fits_goTo (.tag htoken htag hkept)
  split
  · exact fits_complete_tag htoken htag hkept
  · exact fits_handTo (.tag htoken htag hkept)

theorem fits_selfClosingStartTag (htoken : token.Begins tag) (htag : tag.WellFormed)
    (hkept : kept <+: tag.attributes) (c : Char) :
    (selfClosingStartTag (some token) c).Fits kept := by
  unfold selfClosingStartTag
  split
  · exact fits_complete_closeSelf htoken htag hkept
  · exact fits_handTo (.tag htoken htag hkept)

/-- **A character leaves in hand what fits the next state**, in every state. -/
theorem fits_take (h : state.Fits kept pending) (c : Char) : (take state pending c).Fits kept := by
  cases h with
  | data => exact fits_data .data c
  | text hne => exact fits_data (.text hne) c
  | tagOpen => exact fits_tagOpen .tagOpen c
  | endTagOpen => exact fits_endTagOpen .endTagOpen c
  | markupDeclaration => exact fits_markupDeclaration .markupDeclaration c
  | commentStart => exact fits_commentStart .commentStart c
  | commentStartDash => exact fits_commentStartDash .commentStartDash c
  | comment content => exact fits_insideComment (.comment content) c
  | commentEndDash content => exact fits_commentEndDash (.commentEndDash content) c
  | commentEnd content => exact fits_commentEnd (.commentEnd content) c
  | tag htoken htag hstate =>
    cases state with
    | tagName => exact fits_tagName htoken htag hstate c
    | beforeAttributeName => exact fits_beforeAttributeName htoken htag hstate c
    | attributeName => exact fits_attributeName htoken htag hstate c
    | beforeAttributeValue => exact fits_beforeAttributeValue htoken htag hstate c
    | attributeValueDoubleQuoted | attributeValueSingleQuoted =>
      exact fits_quotedValue htoken htag (fun _ h => h) hstate
    | attributeValueUnquoted => exact fits_unquotedValue htoken htag hstate c
    | afterAttributeValueQuoted => exact fits_afterQuotedValue htoken htag hstate.1 c
    | selfClosingStartTag => exact fits_selfClosingStartTag htoken htag hstate c
    | _ => exact hstate.elim

end Turn

/-! ### Reading -/

namespace Lexer

/-- What a lexer has in hand fits its state, and `kept` are finished attributes of it. -/
def Fits (kept : List Attribute) (l : Lexer) : Prop :=
  l.state.Fits kept l.pending

/-- A step that completes no token finishes no attribute less; one that completes a token
hands out a well-formed one, with the finished attributes if it is a tag. -/
theorem fits_step? {kept : List Attribute} {l next : Lexer} {completed : Option Token}
    (h : l.Fits kept) (hstep : l.step? = some (completed, next)) :
    (completed = none → next.Fits kept) ∧
      ∀ token ∈ completed, next.Fits [] ∧ token.WellFormed ∧
        ∀ tag ∈ token.tag?, kept <+: tag.attributes := by
  unfold Fits at h ⊢
  rcases step?_cases hstep with ⟨hstate, rfl, hstate', hpending'⟩ | ⟨c, rfl, hstate', hpending'⟩
  · rw [hstate', hpending', h.kept_eq_nil (by rw [hstate]; rfl)]
    exact ⟨fun _ => .commentStart, by simp⟩
  · have hturn := Turn.fits_take h c
    rw [hstate', hpending']
    exact ⟨hturn.pending, hturn.completed⟩

/-- **A lexer hands out well-formed tokens**, and has in hand what fits its state. -/
theorem fits_read {l : Lexer} (h : l.Fits []) (text : List Char) :
    (l.read text).2.Fits [] ∧ ∀ token ∈ (l.read text).1, token.WellFormed := by
  refine @read_preserves (Fits []) Token.WellFormed ?_ l text h
  intro l next completed hfits hstep
  obtain ⟨hnone, hsome⟩ := fits_step? hfits hstep
  cases completed with
  | none => exact ⟨hnone rfl, by simp⟩
  | some token =>
    obtain ⟨hnext, htoken, -⟩ := hsome token rfl
    exact ⟨hnext, by simpa using htoken⟩

/-- **Finished attributes stay**: the tag under construction either is still under
construction at the end of the text, or becomes the first token, and has them. -/
theorem kept_read {kept : List Attribute} {l : Lexer} (h : l.Fits kept) (text : List Char) :
    ((l.read text).1 = [] ∧ (l.read text).2.Fits kept) ∨
      ∃ token rest, (l.read text).1 = token :: rest ∧
        ∀ tag ∈ token.tag?, kept <+: tag.attributes := by
  have hrun : ∀ l : Lexer, l.Fits kept →
      ((l.run #[]).1.toList = [] ∧ (l.run #[]).2.Fits kept) ∨
        ∃ token rest, (l.run #[]).1.toList = token :: rest ∧
          ∀ tag ∈ token.tag?, kept <+: tag.attributes := by
    intro l
    induction hwork : l.work using Nat.strong_induction_on generalizing l with
    | _ work ih =>
      intro h
      match hnext : l.step? with
      | none =>
        rw [run_of_stop hnext]
        exact Or.inl ⟨rfl, h⟩
      | some (none, next) =>
        rw [run_of_step hnext]
        exact ih next.work (hwork ▸ work_step hnext) next rfl ((fits_step? h hnext).1 rfl)
      | some (some token, next) =>
        rw [run_of_complete hnext, run_eq]
        refine Or.inr ⟨token, (next.run #[]).1.toList, by simp, ?_⟩
        exact ((fits_step? h hnext).2 token rfl).2.2
  exact hrun (l.extend text) h

end Lexer

end TemplateTree
