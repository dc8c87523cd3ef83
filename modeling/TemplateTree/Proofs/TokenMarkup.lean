/-
Reading tokens back from their markup.

Tokens are written one after another, and the lexer takes the row apart again, as long as
each of them could have been read as such.  The one thing that the writer cannot save is a
double quote in the value of an attribute: the backslash before it is a character like any
other to the lexer, so the value ends at the quote, and it ends in the backslash.

Between two tokens the lexer has at most the last one in hand, a text that may yet go on.
`Holds` says so, and `read_token` that the markup of a token hands out what was held and
leaves the token handed out or held.
-/
import TemplateTree.Proofs.Pending

namespace TemplateTree

/-! ### Rows of tokens that can be read -/

/-- After an opening bracket, a character that goes on with markup, or is passed over. -/
def goesOnMarkup (c : Char) : Bool :=
  isAsciiLetter c || c == '!' || c == '/' || isMarkupSpace c

/-- A run of text that is read as one token.  A bracket can only begin it, and only if no
markup begins there. -/
def IsTextRun (content : String) : Prop :=
  ∃ first rest, content.toList = first :: rest ∧ '<' ∉ rest ∧
    (first = '<' → ∀ second ∈ rest.head?, goesOnMarkup second = false)

/-- An attribute whose value is one text, or nothing. -/
structure Attribute.Literal (a : Attribute) : Prop where
  name : Lexer.IsAttributeName a.name
  value : a.value = [] ∨ ∃ content, content ≠ "" ∧ a.value = [.text content]

/-- An attribute with no double quote in its value. -/
def Attribute.QuoteFree (a : Attribute) : Prop :=
  ∀ content, .text content ∈ a.value → '\"' ∉ content.toList

namespace Token

/-- A token that could have been read from markup without expressions. -/
def Readable : Token → Prop
  | .text content => IsTextRun content
  | .comment content => Lexer.IsCommentText content
  | .startTag tag =>
    Lexer.IsTagName tag.name ∧ tag.modifiers = [] ∧ ∀ a ∈ tag.attributes, a.Literal
  | .endTag tag => Lexer.IsTagName tag.name ∧ tag.attributes = []

/-- A text after a text begins with a bracket, since otherwise it would go on with it. -/
def Separate : Token → Token → Prop
  | .text _, .text content => ['<'] <+: content.toList
  | _, _ => True

/-- A row of tokens that could have been read one after another.  A bracket at the end of
everything is dropped. -/
structure ReadableRow (tokens : List Token) : Prop where
  each : ∀ token ∈ tokens, token.Readable
  separate : tokens.IsChain Separate
  last : tokens.getLast? ≠ some (.text "<")

/-- A token with no double quote in the value of an attribute. -/
def QuoteFree (token : Token) : Prop :=
  ∀ tag ∈ token.tag?, ∀ a ∈ tag.attributes, a.QuoteFree

end Token

namespace Lexer

/-! ### Between tokens -/

/-- The lexer has read everything, and the tokens `held` are in hand, not handed out. -/
inductive Holds : Lexer → List Token → Prop
  | nothing : Holds ⟨.data, none, []⟩ []
  | text (content : String) : Holds ⟨.data, some (.text content), []⟩ [.text content]
  | bracket : Holds ⟨.tagOpen, none, []⟩ [.text "<"]

/-- A bracket that opens nothing is text, and the character after it is read as text. -/
theorem read_of_opensNothing {c : Char} (h : goesOnMarkup c = false) (rest : List Char) :
    read ⟨.tagOpen, none, []⟩ (c :: rest) = read ⟨.data, some (.text "<"), []⟩ (c :: rest) := by
  have hturn : Turn.take .tagOpen none c = Turn.handTo .data (some (.text "<")) := by
    simp only [goesOnMarkup, Bool.or_eq_false_iff, beq_eq_false_iff_ne, ne_eq] at h
    obtain ⟨⟨⟨hletter, hmark⟩, hslash⟩, hspace⟩ := h
    show Turn.tagOpen none c = _
    simp [Turn.tagOpen, hletter, hmark, hslash, hspace, Turn.addText]
  have hstep : step? ⟨.tagOpen, none, c :: rest⟩ =
      some (none, ⟨.data, some (.text "<"), c :: rest⟩) := by
    have hopening : commentOpening ⟨.tagOpen, none, c :: rest⟩ = .no := rfl
    simp [step?, hopening, hturn, Turn.handTo]
  simp only [read, extend, List.nil_append]
  rw [run_of_step hstep]

/-- **A bracket hands out what was held**, and is held itself. -/
theorem read_bracket {l : Lexer} {held : List Token} (h : l.Holds held) :
    l.read ['<'] = (held, ⟨.tagOpen, none, []⟩) := by
  cases h with
  | nothing => exact passes_singleton (by decide) rfl
  | text content => exact read_of_complete (by decide) rfl
  | bracket =>
    rw [read_of_opensNothing (by decide)]
    exact read_of_complete (by decide) rfl

variable {l : Lexer} {held : List Token}

/-- A text that begins with a bracket hands out what was held before it. -/
theorem read_bracketText (h : l.Holds held) {rest : List Char} (hrest : '<' ∉ rest)
    (hsecond : ∀ second ∈ rest.head?, goesOnMarkup second = false) :
    ∃ l', l.read ('<' :: rest) = (held, l') ∧ l'.Holds [.text (String.ofList ('<' :: rest))] := by
  rw [← List.singleton_append, read_append, read_bracket h]
  cases rest with
  | nil => exact ⟨⟨.tagOpen, none, []⟩, by rw [passes_nil]; simp, .bracket⟩
  | cons second more =>
    have hne : String.ofList (second :: more) ≠ "" := by simp
    have htext := (passes_text hne (by simpa using hrest)).2 "<"
    rw [String.toList_ofList] at htext
    have hjoined : "<" ++ String.ofList (second :: more) =
        String.ofList ('<' :: second :: more) := by
      apply String.toList_inj.mp
      simp
    refine ⟨_, ?_, .text _⟩
    rw [read_of_opensNothing (hsecond second rfl), htext, hjoined]
    simp

/-- **A text is held**, after what was held before it. -/
theorem read_text (h : l.Holds held) {content : String} (hrun : IsTextRun content)
    (hseparate : ∀ last ∈ held.getLast?, last.Separate (.text content)) :
    ∃ l', l.read content.toList = (held, l') ∧ l'.Holds [.text content] := by
  obtain ⟨first, rest, hcontent, hrest, hsecond⟩ := hrun
  by_cases hbracket : first = '<'
  · subst hbracket
    obtain ⟨l', hread, hholds⟩ := read_bracketText h hrest (hsecond rfl)
    rw [← hcontent, String.ofList_toList] at hholds
    exact ⟨l', hcontent ▸ hread, hholds⟩
  · have hnone : '<' ∉ content.toList := by simp [hcontent, hrest, Ne.symm hbracket]
    have hbegins : ¬ ['<'] <+: content.toList := fun hbegins => hnone (hbegins.subset (by simp))
    have hne : content ≠ "" := by
      rintro rfl
      cases hcontent
    cases h with
    | nothing => exact ⟨_, (passes_text hne hnone).1, .text content⟩
    | text before => exact absurd (hseparate _ rfl) hbegins
    | bracket => exact absurd (hseparate _ rfl) hbegins

/-! ### Comments and tags -/

theorem read_commentMarkup {content : String} (h : IsCommentText content) :
    read ⟨.tagOpen, none, []⟩ ("!--" ++ (content ++ "-->")).toList =
      ([.comment content], ⟨.data, none, []⟩) := by
  rw [String.toList_append, read_append, passes_commentOpening, read_comment h]
  rfl

theorem read_endTagMarkup {name : String} (h : IsTagName name) :
    read ⟨.tagOpen, none, []⟩ ("/" ++ (name ++ ">")).toList =
      ([.endTag { name }], ⟨.data, none, []⟩) := by
  have hslash : Passes ⟨.tagOpen, none, []⟩ "/".toList ⟨.endTagOpen, none, []⟩ :=
    passes_singleton (by decide) rfl
  have hend : read ⟨.tagName, some (.endTag { name }), []⟩ ">".toList =
      ([.endTag { name }], ⟨.data, none, []⟩) :=
    read_tagEnd rfl _
  rw [String.toList_append, read_append, hslash, String.toList_append, read_append,
    passes_endTagName h, hend]
  rfl

/-- What is written of an attribute up to a character inside its value. -/
theorem passes_valueBeginning {state : LexerState} (hstate : isBetweenParts state = true)
    (tag : StartTag) {name : String} (hname : IsAttributeName name) {content : String}
    (hquote : '\"' ∉ content.toList) :
    Passes ⟨state, some (.startTag tag), []⟩ (" " ++ (name ++ ("=\"" ++ content))).toList
      ⟨.attributeValueDoubleQuoted, some (.startTag
        { tag with attributes := tag.attributes ++ [(Attribute.mk name []).pushText content] }),
        []⟩ := by
  have hvalue := @passes_valueText { tag with attributes := tag.attributes ++ [⟨name, []⟩] }
    tag.attributes ⟨name, []⟩ rfl content hquote
  simp only [String.toList_append]
  exact (passes_blank hstate _).append ((passes_attributeName tag hname).append
    ((passes_valueOpening _).append hvalue))

/-- **An attribute without a double quote is added to the tag.** -/
theorem passes_attribute {state : LexerState} (hstate : isBetweenParts state = true)
    (tag : StartTag) {a : Attribute} (h : a.Literal) (hquote : a.QuoteFree) :
    ∃ state', isBetweenParts state' = true ∧
      Passes ⟨state, some (.startTag tag), []⟩ (" " ++ MarkupStyle.attributeText a).toList
        ⟨state', some (.startTag { tag with attributes := tag.attributes ++ [a] }), []⟩ := by
  obtain ⟨name, value⟩ := a
  obtain ⟨hname, hvalue⟩ := h
  rcases hvalue with hnil | ⟨content, hne, hcontent⟩
  · simp only at hnil
    subst hnil
    refine ⟨.attributeName, rfl, ?_⟩
    simp only [MarkupStyle.attributeText, if_true, String.toList_append]
    exact (passes_blank hstate _).append (passes_attributeName tag hname)
  · simp only at hcontent
    subst hcontent
    have hfree := hquote content (by simp)
    have hbeginning := passes_valueBeginning hstate tag hname hfree
    have hpush : (Attribute.mk name []).pushText content = ⟨name, [.text content]⟩ := by
      simp [Attribute.pushText, hne, Fragment.join]
    have hmarkup : " " ++ MarkupStyle.attributeText ⟨name, [.text content]⟩ =
        " " ++ (name ++ ("=\"" ++ content)) ++ "\"" := by
      simp [MarkupStyle.attributeText, MarkupStyle.fragmentText, markQuotes_of_not_mem hfree,
        String.append_assoc]
    rw [hpush] at hbeginning
    refine ⟨.afterAttributeValueQuoted, rfl, ?_⟩
    rw [hmarkup, String.toList_append]
    exact hbeginning.append (passes_valueEnd _)

/-- Attributes as they are written, each with a blank before it. -/
def attributesMarkup (attributes : List Attribute) : String :=
  String.join (attributes.map fun a => " " ++ MarkupStyle.attributeText a)

theorem passes_attributes :
    ∀ (attributes : List Attribute), (∀ a ∈ attributes, a.Literal) →
      (∀ a ∈ attributes, a.QuoteFree) →
      ∀ {state : LexerState} (tag : StartTag), isBetweenParts state = true →
        ∃ state', isBetweenParts state' = true ∧
          Passes ⟨state, some (.startTag tag), []⟩ (attributesMarkup attributes).toList
            ⟨state', some (.startTag { tag with attributes := tag.attributes ++ attributes }), []⟩ := by
  intro attributes
  induction attributes with
  | nil =>
    intro _ _ state tag hstate
    refine ⟨state, hstate, ?_⟩
    rw [List.append_nil]
    exact passes_nil _ _
  | cons a rest ih =>
    intro hliteral hquotes state tag hstate
    obtain ⟨state₁, hstate₁, hfirst⟩ :=
      passes_attribute hstate tag (hliteral a (by simp)) (hquotes a (by simp))
    obtain ⟨state₂, hstate₂, hrest⟩ := ih (fun b hb => hliteral b (by simp [hb]))
      (fun b hb => hquotes b (by simp [hb])) { tag with attributes := tag.attributes ++ [a] } hstate₁
    refine ⟨state₂, hstate₂, ?_⟩
    have hmarkup : attributesMarkup (a :: rest) =
        " " ++ MarkupStyle.attributeText a ++ attributesMarkup rest := by
      simp [attributesMarkup]
    simp only [List.append_assoc, List.singleton_append] at hrest
    rw [hmarkup, String.toList_append]
    exact hfirst.append hrest

/-- What follows the bracket in the markup of a start tag. -/
def startTagRest (tag : StartTag) : String :=
  tag.name ++ (attributesMarkup tag.attributes ++ if tag.selfClosing then "/>" else ">")

theorem startTag_eq {tag : StartTag} (h : tag.modifiers = []) :
    MarkupStyle.standard.startTag tag = "<" ++ startTagRest tag := by
  simp [MarkupStyle.startTag, MarkupStyle.standard, MarkupStyle.tagText, attributesText_eq,
    startTagRest, attributesMarkup, h, String.append_assoc]

/-- **A start tag without double quotes reads as it is written.** -/
theorem read_startTagMarkup {tag : StartTag} (h : (Token.startTag tag).Readable)
    (hquotes : (Token.startTag tag).QuoteFree) :
    read ⟨.tagOpen, none, []⟩ (startTagRest tag).toList =
      ([.startTag tag], ⟨.data, none, []⟩) := by
  obtain ⟨hname, hmodifiers, hliteral⟩ := h
  have hfirst : isBetweenParts .tagName = true := rfl
  obtain ⟨state, hstate, hattributes⟩ := passes_attributes tag.attributes hliteral
    (hquotes tag.toTag rfl) { name := tag.name } hfirst
  have hbeginning := (passes_startTagName hname).append hattributes
  rw [startTagRest, ← String.append_assoc, String.toList_append, read_append, String.toList_append,
    hbeginning]
  obtain ⟨⟨name, attributes⟩, selfClosing, modifiers⟩ := tag
  simp only at hmodifiers
  subst hmodifiers
  cases selfClosing with
  | true =>
    have hend := read_selfClosingEnd hstate { name, attributes }
    simpa using hend
  | false =>
    have hend := read_tagEnd hstate (.startTag { name, attributes })
    simpa using hend

/-- **The markup of a token hands out what was held**, and the token is handed out or held
in its turn. -/
theorem read_token (h : l.Holds held) {token : Token} (htoken : token.Readable)
    (hquotes : token.QuoteFree) (hseparate : ∀ last ∈ held.getLast?, last.Separate token) :
    ∃ done l' held', l.read (token.markup .standard).toList = (held ++ done, l') ∧
      l'.Holds held' ∧ done ++ held' = [token] := by
  have hmarkup : ∀ {rest : String}, token.markup .standard = "<" ++ rest →
      read ⟨.tagOpen, none, []⟩ rest.toList = ([token], ⟨.data, none, []⟩) →
        ∃ done l' held', l.read (token.markup .standard).toList = (held ++ done, l') ∧
          l'.Holds held' ∧ done ++ held' = [token] := by
    intro rest heq hread
    refine ⟨[token], ⟨.data, none, []⟩, [], ?_, .nothing, rfl⟩
    rw [heq, String.toList_append, read_append, show "<".toList = ['<'] from rfl, read_bracket h,
      hread]
  cases token with
  | text content =>
    obtain ⟨l', hread, hholds⟩ := read_text h htoken hseparate
    exact ⟨[], l', [.text content], by rw [List.append_nil]; exact hread, hholds, rfl⟩
  | comment content =>
    refine hmarkup ?_ (read_commentMarkup htoken)
    apply String.toList_inj.mp
    simp [Token.markup, commentText]
  | startTag tag => exact hmarkup (startTag_eq htoken.2.1) (read_startTagMarkup htoken hquotes)
  | endTag tag =>
    obtain ⟨name, attributes⟩ := tag
    obtain ⟨hname, hattributes⟩ := htoken
    simp only at hattributes
    subst hattributes
    refine hmarkup ?_ (read_endTagMarkup hname)
    apply String.toList_inj.mp
    simp [Token.markup, endTagText]

/-! ### A double quote -/

/-- All tokens of a text: those handed out, and at its end the text in hand. -/
def readAll (l : Lexer) (text : List Char) : List Token :=
  (l.read text).1 ++ ((l.read text).2.takeText.1.map Token.text).toList

theorem tokenize_eq_readAll (text : String) : tokenize text = readAll {} text.toList := by
  rw [tokenize, feed_eq_read, readAll]
  simp only
  split
  · rename_i content hcontent
    simp [hcontent]
  · rename_i hnone
    simp [hnone]

theorem readAll_append (l : Lexer) (first second : List Char) :
    l.readAll (first ++ second) = (l.read first).1 ++ (l.read first).2.readAll second := by
  simp [readAll, read_append]

/-- The first of all tokens has the attributes that were finished, if it is a tag. -/
theorem kept_readAll {kept : List Attribute} {l : Lexer} (h : l.Fits kept) {text : List Char}
    {tag : StartTag} {rest : List Token} (hall : l.readAll text = .startTag tag :: rest) :
    kept <+: tag.attributes := by
  unfold readAll at hall
  rcases kept_read h text with ⟨hnone, -⟩ | ⟨token, more, hfirst, hkept⟩
  · rw [hnone] at hall
    cases htext : (l.read text).2.takeText.1 <;> simp [htext] at hall
  · rw [hfirst, List.cons_append, List.cons.injEq] at hall
    rw [hall.1] at hkept
    exact hkept tag.toTag rfl

end Lexer

theorem Attribute.Literal.wellFormed {a : Attribute} (h : a.Literal) : a.WellFormed := by
  obtain ⟨hname, hvalue⟩ := h
  rcases hvalue with hnil | ⟨content, hne, hcontent⟩
  · exact ⟨hname, by simp [hnil], by simp [hnil]⟩
  · exact ⟨hname, by simpa [hcontent] using Ne.symm hne, by simp [hcontent]⟩

/-- The double quote with its mark, in the middle of a value. -/
theorem toList_markQuotes_of_quote {content : String} {before after : List Char}
    (h : content.toList = before ++ '\"' :: after) (hbefore : '\"' ∉ before) :
    (markQuotes content).toList = before ++ '\\' :: '\"' :: marked after := by
  have happend : marked (before ++ '\"' :: after) = marked before ++ marked ('\"' :: after) :=
    List.flatMap_append
  rw [toList_markQuotes, h, happend, marked_of_not_mem before hbefore]
  rfl

namespace Lexer

/-- The first attribute with a double quote in it, and where in its value that is. -/
theorem exists_first_quote :
    ∀ attributes : List Attribute, (∀ a ∈ attributes, a.Literal) →
      (¬ ∀ a ∈ attributes, a.QuoteFree) →
      ∃ earlier name content later before after,
        attributes = earlier ++ ⟨name, [.text content]⟩ :: later ∧
          (∀ a ∈ earlier, a.QuoteFree) ∧
          content.toList = before ++ '\"' :: after ∧ '\"' ∉ before := by
  intro attributes
  induction attributes with
  | nil => simp
  | cons a rest ih =>
    intro hliteral hquotes
    by_cases hfree : a.QuoteFree
    · have hrest : ¬ ∀ b ∈ rest, b.QuoteFree :=
        fun hall => hquotes fun b hb => (List.mem_cons.mp hb).elim (· ▸ hfree) (hall b)
      obtain ⟨earlier, name, content, later, before, after, heq, hearlier, hcontent⟩ :=
        ih (fun b hb => hliteral b (by simp [hb])) hrest
      refine ⟨a :: earlier, name, content, later, before, after, by rw [heq]; rfl, ?_, hcontent⟩
      exact fun b hb => (List.mem_cons.mp hb).elim (· ▸ hfree) (hearlier b)
    · obtain ⟨name, value⟩ := a
      rcases (hliteral ⟨name, value⟩ (by simp)).value with hnil | ⟨content, -, hcontent⟩
      · simp only at hnil
        simp [Attribute.QuoteFree, hnil] at hfree
      · simp only at hcontent
        subst hcontent
        have hmem : '\"' ∈ content.toList := by simpa [Attribute.QuoteFree] using hfree
        obtain ⟨before, after, hsplit, hbefore⟩ := List.eq_append_cons_of_mem hmem
        exact ⟨[], name, content, rest, before, after, rfl, by simp, hsplit, hbefore⟩

/-- A value is read up to its first double quote, and the mark of the quote is the last
character of it. -/
theorem passes_firstQuote {state : LexerState} (hstate : isBetweenParts state = true)
    (tag : StartTag) {name content : String} (hname : IsAttributeName name)
    {before after : List Char} (hcontent : content.toList = before ++ '\"' :: after)
    (hbefore : '\"' ∉ before) :
    ∃ first rest,
      (" " ++ MarkupStyle.attributeText ⟨name, [.text content]⟩).toList = first ++ rest ∧
        Passes ⟨state, some (.startTag tag), []⟩ first
          ⟨.afterAttributeValueQuoted, some (.startTag { tag with attributes :=
            tag.attributes ++ [⟨name, [.text (String.ofList (before ++ ['\\']))]⟩] }), []⟩ := by
  have hquote : '\"' ∉ (String.ofList (before ++ ['\\'])).toList := by simp [hbefore]
  have hbeginning := passes_valueBeginning hstate tag hname hquote
  have hpush : (Attribute.mk name []).pushText (String.ofList (before ++ ['\\'])) =
      ⟨name, [.text (String.ofList (before ++ ['\\']))]⟩ := by
    simp [Attribute.pushText, Fragment.join]
  rw [hpush] at hbeginning
  refine ⟨_, marked after ++ ['\"'], ?_, hbeginning.append (passes_valueEnd _)⟩
  simp [MarkupStyle.attributeText, MarkupStyle.fragmentText,
    toList_markQuotes_of_quote hcontent hbefore]

/-- After a quoted value, all attributes so far are finished. -/
theorem fits_of_literals {name : String} (hname : IsTagName name) {attributes : List Attribute}
    (hliteral : ∀ a ∈ attributes, a.Literal) (hne : attributes ≠ []) :
    Fits attributes ⟨.afterAttributeValueQuoted, some (.startTag { name, attributes }), []⟩ :=
  .tag (.startTag _ _) ⟨hname, fun a ha => (hliteral a ha).wellFormed⟩ ⟨List.prefix_refl _, hne⟩

/-- A tag is read up to its first double quote, and then has a finished attribute that it was
not written with. -/
theorem exists_passes_of_quote {tag : StartTag} (h : (Token.startTag tag).Readable)
    (hquotes : ¬ (Token.startTag tag).QuoteFree) :
    ∃ first rest kept l, (startTagRest tag).toList = first ++ rest ∧
      Passes ⟨.tagOpen, none, []⟩ first l ∧ l.Fits kept ∧ ¬ kept <+: tag.attributes := by
  obtain ⟨hname, -, hliteral⟩ := h
  have hsome : ¬ ∀ a ∈ tag.attributes, a.QuoteFree := by
    intro hall
    apply hquotes
    simpa [Token.QuoteFree, Token.tag?] using hall
  obtain ⟨earlier, name, content, later, before, after, hattributes, hearlier, hcontent, hbefore⟩ :=
    exists_first_quote tag.attributes hliteral hsome
  rw [hattributes] at hliteral
  have hliteral' : ∀ a ∈ earlier, a.Literal := fun a ha => hliteral a (by simp [ha])
  have hquoted : Attribute.Literal ⟨name, [.text content]⟩ := hliteral _ (by simp)
  -- the name, the attributes without double quotes, and the next one up to its double quote
  have hfirst : isBetweenParts .tagName = true := rfl
  obtain ⟨state, hstate, hpassed⟩ :=
    passes_attributes earlier hliteral' hearlier { name := tag.name } hfirst
  obtain ⟨first, rest, hmarkup, hvalue⟩ :=
    passes_firstQuote hstate { name := tag.name, attributes := earlier } hquoted.name hcontent hbefore
  have hwritten : (attributesMarkup tag.attributes).toList =
      (attributesMarkup earlier).toList ++ (first ++ rest) ++ (attributesMarkup later).toList := by
    rw [← hmarkup, hattributes]
    simp [attributesMarkup]
  refine ⟨tag.name.toList ++ (attributesMarkup earlier).toList ++ first,
    rest ++ (attributesMarkup later).toList ++ (if tag.selfClosing then "/>" else ">").toList,
    earlier ++ [⟨name, [.text (String.ofList (before ++ ['\\']))]⟩], _, ?_,
    ((passes_startTagName hname).append hpassed).append hvalue, fits_of_literals hname ?_ (by simp), ?_⟩
  · simp [startTagRest, hwritten]
  · intro a ha
    rcases List.mem_append.mp ha with hold | hnew
    · exact hliteral' a hold
    · rw [List.mem_singleton.mp hnew]
      exact ⟨hquoted.name, Or.inr ⟨_, by simp, rfl⟩⟩
  · intro hkept
    rw [hattributes, List.prefix_append_right_inj] at hkept
    have hsame := congrArg String.toList (by simpa using hkept)
    simp [hcontent] at hsame

/-- **A double quote ends the value that it stands in.**  The tag that is read, if any, has
another value there than the one that was written. -/
theorem readAll_of_quote {tag : StartTag} (h : (Token.startTag tag).Readable)
    (hquotes : ¬ (Token.startTag tag).QuoteFree) (more : List Char) (rest : List Token) :
    readAll ⟨.tagOpen, none, []⟩ ((startTagRest tag).toList ++ more) ≠ .startTag tag :: rest := by
  obtain ⟨first, later, kept, l, hmarkup, hpasses, hfits, hkept⟩ := exists_passes_of_quote h hquotes
  rw [hmarkup, List.append_assoc, readAll_append, hpasses]
  exact fun hread => hkept (kept_readAll hfits hread)

/-- Only a start tag can have a double quote in it. -/
theorem exists_startTag_of_quote {token : Token} (h : token.Readable)
    (hquotes : ¬ token.QuoteFree) : ∃ tag, token = .startTag tag := by
  cases token with
  | text content => exact absurd (by simp [Token.QuoteFree, Token.tag?]) hquotes
  | comment content => exact absurd (by simp [Token.QuoteFree, Token.tag?]) hquotes
  | startTag tag => exact ⟨tag, rfl⟩
  | endTag tag => exact absurd (by simp [Token.QuoteFree, Token.tag?, h.2]) hquotes

/-- At the end, a held text is the last token. -/
theorem readAll_nil {l : Lexer} {held : List Token} (h : l.Holds held)
    (hlast : held.getLast? ≠ some (.text "<")) : l.readAll [] = held := by
  cases h with
  | nothing | text content =>
    rw [readAll, passes_nil]
    rfl
  | bracket => exact absurd rfl hlast

/-- **Rows of tokens read as they are written exactly if no value has a double quote**, after
any tokens that are held. -/
theorem readAll_markup_iff :
    ∀ (tokens : List Token) {l : Lexer} {held : List Token}, l.Holds held →
      (∀ token ∈ tokens, token.Readable) → (held ++ tokens).IsChain Token.Separate →
      (held ++ tokens).getLast? ≠ some (.text "<") →
      (l.readAll (markupOfTokens .standard tokens).toList = held ++ tokens ↔
        ∀ token ∈ tokens, token.QuoteFree) := by
  intro tokens
  induction tokens with
  | nil =>
    intro l held h _ _ hlast
    rw [List.append_nil] at hlast ⊢
    exact iff_of_true (readAll_nil h hlast) (by simp)
  | cons token rest ih =>
    intro l held h hreadable hchain hlast
    have htoken : token.Readable := hreadable token (by simp)
    have hmarkup : (markupOfTokens .standard (token :: rest)).toList =
        (token.markup .standard).toList ++ (markupOfTokens .standard rest).toList := by
      simp [markupOfTokens]
    rw [hmarkup, readAll_append, List.forall_mem_cons]
    by_cases hquotes : token.QuoteFree
    · have hseparate : ∀ last ∈ held.getLast?, last.Separate token := fun last hmem =>
        (List.isChain_append.mp hchain).2.2 last hmem token rfl
      obtain ⟨done, l', held', hread, hholds, hdone⟩ := read_token h htoken hquotes hseparate
      have hrow : held ++ token :: rest = held ++ done ++ (held' ++ rest) := by
        rw [← List.singleton_append, ← hdone]
        simp
      rw [hrow] at hchain hlast
      have hlast' : (held' ++ rest).getLast? ≠ some (.text "<") := by
        intro hsome
        rw [List.getLast?_append, hsome] at hlast
        exact hlast rfl
      rw [hrow, hread, List.append_cancel_left_eq, ih hholds
        (fun token' hmem => hreadable token' (by simp [hmem])) hchain.right_of_append hlast']
      exact (and_iff_right hquotes).symm
    · refine iff_of_false ?_ fun hall => hquotes hall.1
      obtain ⟨tag, rfl⟩ := exists_startTag_of_quote htoken hquotes
      have hrest : (Token.startTag tag).markup .standard = "<" ++ startTagRest tag :=
        startTag_eq htoken.2.1
      rw [← readAll_append, hrest, String.toList_append, List.append_assoc, readAll_append,
        show "<".toList = ['<'] from rfl, read_bracket h, List.append_cancel_left_eq]
      exact readAll_of_quote htoken hquotes _ _

/-- **A row of tokens can be taken apart again exactly if no value has a double quote.** -/
theorem tokenize_markup_iff {tokens : List Token} (h : Token.ReadableRow tokens) :
    tokenize (markupOfTokens .standard tokens) = tokens ↔ ∀ token ∈ tokens, token.QuoteFree := by
  rw [tokenize_eq_readAll]
  exact readAll_markup_iff tokens .nothing h.each h.separate h.last

/-- A row with brackets that open nothing, with an attribute whose name is an equals sign, and
with a comment of dashes.  It can be taken apart, but not with a double quote in a value. -/
theorem tokenize_markup_around_quote :
    ∃ row : String → List Token,
      row = (fun value => [.text "<", .text "<3",
        .startTag { name := "p", attributes := [⟨"=", []⟩, ⟨"id", [.text value]⟩] },
        .comment "--", .endTag { name := "p" }]) ∧
      (Token.ReadableRow (row "a") ∧
        tokenize (markupOfTokens .standard (row "a")) = row "a") ∧
      Token.ReadableRow (row "\"") ∧
        tokenize (markupOfTokens .standard (row "\"")) ≠ row "\"" := by
  have hp : IsTagName "p" := ⟨'p', [], rfl, by decide, by simp⟩
  have hid : IsAttributeName "id" := ⟨'i', ['d'], by decide, by decide, by simp; decide⟩
  have hreadable : ∀ value : String, value ≠ "" → Token.ReadableRow [.text "<", .text "<3",
      .startTag { name := "p", attributes := [⟨"=", []⟩, ⟨"id", [.text value]⟩] },
      .comment "--", .endTag { name := "p" }] := by
    intro value hne
    refine ⟨?_, by simp [Token.Separate], by simp⟩
    simp only [List.forall_mem_cons, List.not_mem_nil, false_implies, implies_true, and_true]
    refine ⟨⟨'<', [], rfl, by decide, by simp⟩, ⟨'<', ['3'], by decide, by decide, by simp; decide⟩,
      ⟨hp, rfl, ?_⟩, ⟨by decide, by decide, by decide⟩, hp, rfl⟩
    simp only [List.forall_mem_cons, List.not_mem_nil, false_implies, implies_true, and_true]
    exact ⟨⟨⟨'=', [], rfl, by decide, by simp⟩, Or.inl rfl⟩,
      hid, Or.inr ⟨value, hne, rfl⟩⟩
  have hfree := hreadable "a" (by decide)
  have hquoted := hreadable "\"" (by decide)
  refine ⟨_, rfl, ⟨hfree, (tokenize_markup_iff hfree).mpr ?_⟩, hquoted, fun h => ?_⟩
  · simp [Token.QuoteFree, Token.tag?, Attribute.QuoteFree]
  · have hall := (tokenize_markup_iff hquoted).mp h
    simp [Token.QuoteFree, Token.tag?, Attribute.QuoteFree] at hall

end Lexer

end TemplateTree
