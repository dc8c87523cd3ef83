/-
The ways to spell a start tag.

A start tag can be written in many ways that all say the same: in any letter case, with any blanks
between its parts, and with each value in either kind of quotes or in none.  The parts cannot be put
side by side in every way, though.  After a value without quotes a blank has to come, before a slash
too, since the value would go on otherwise; after a closing quote none has to.  What a part ends
with is all that the next one has to know of it, so `PartEnd` is what the spellings of the parts are
put together by, and it says just as much as the state that the lexer is in there.

The case of letters matters in values and nowhere else.
-/
import TemplateTree.Proofs.OneCharacter
import TemplateTree.Proofs.ValueOrder

namespace TemplateTree

/-! ### Spellings -/

/-- A text of blanks, the empty one included. -/
def MarkupBlanks (gap : List Char) : Prop :=
  ∀ c ∈ gap, isMarkupSpace c = true

/-- What a part of a tag ends with. -/
inductive PartEnd
  | name
  | quoted
  | unquoted
  deriving DecidableEq, Repr

/-- What is written for a value behind the name of its attribute. -/
inductive ValueSpelledAs : String → PartEnd → List Char → Prop
  /-- An empty value may be left out, with its equals sign. -/
  | nothing : ValueSpelledAs "" .name []
  | quoted {value : String} {quote : Char} {gap : List Char} (hquote : quote = '\"' ∨ quote = '\'')
      (hgap : MarkupBlanks gap) (hvalue : quote ∉ value.toList) :
    ValueSpelledAs value .quoted ('=' :: (gap ++ (quote :: (value.toList ++ [quote]))))
  | unquoted {value : String} {gap : List Char} (hgap : MarkupBlanks gap) (hne : value ≠ "")
      (hvalue : ∀ c ∈ value.toList, isMarkupSpace c = false ∧ c ≠ '>')
      (hfirst : ∀ c ∈ value.toList.head?, c ≠ '\"' ∧ c ≠ '\'') :
    ValueSpelledAs value .unquoted ('=' :: (gap ++ value.toList))

/-- What is written for some names and values, between the end of another part and their own.  A
blank has to come before each of them, but not behind a closing quote. -/
inductive AttributesSpelledAs : PartEnd → List (String × String) → PartEnd → List Char → Prop
  | nil (last : PartEnd) : AttributesSpelledAs last [] last []
  | cons {before after last : PartEnd} {name value written : String} {rest : List (String × String)}
      {gap text later : List Char} (hgap : MarkupBlanks gap) (hglued : gap = [] → before = .quoted)
      (hname : sameIgnoringCase written name = true) (hvalue : ValueSpelledAs value after text)
      (hrest : AttributesSpelledAs after rest last later) :
    AttributesSpelledAs before ((name, value) :: rest) last
      (gap ++ (written.toList ++ (text ++ later)))

/-- What is written for a start tag.  A value without quotes would take the slash of a tag that ends
itself for its own, were there no blank between the two. -/
inductive StartTagSpelledAs (name : String) (attributes : List (String × String))
    (selfClosing : Bool) : List Char → Prop
  | mk {written : String} {text gap : List Char} {last : PartEnd}
      (hname : sameIgnoringCase written name = true)
      (hattributes : AttributesSpelledAs .name attributes last text) (hgap : MarkupBlanks gap)
      (hslash : selfClosing = true → last = .unquoted → gap ≠ []) :
    StartTagSpelledAs name attributes selfClosing
      ('<' :: (written.toList ++ (text ++ (gap ++ if selfClosing then ['/', '>'] else ['>']))))

/-- The attribute that a name and a value stand for. -/
def Attribute.lowered (a : String × String) : Attribute :=
  .ofText (asciiLower a.1) a.2

/-! ### Letter case -/

theorem isAsciiLetter_toLower (c : Char) : isAsciiLetter c.toLower = isAsciiLetter c := by
  rw [isAsciiLetter_eq_isAlpha, isAsciiLetter_eq_isAlpha, Char.isAlpha_toLower_eq_isAlpha]

theorem endsName_toLower (c : Char) : endsName c.toLower = endsName c := by
  rcases toLower_cases c with hlower | ⟨-, hsame⟩
  · have hletter : isAsciiLetter c = true := by
      rwa [isAsciiLetter_eq_isAlpha, ← Char.isLower_toLower_eq_isAlpha]
    rw [endsName_of_isNameChar (Lexer.letter_of_isLower hlower).2,
      (Lexer.letter_of_isAsciiLetter hletter).2]
  · rw [hsame]

namespace Lexer

variable {name written : String}

/-- A name in another case is a row of characters in another case. -/
theorem exists_of_sameIgnoringCase (h : sameIgnoringCase written name = true) {first : Char}
    {rest : List Char} (hname : name.toList = first :: rest) :
    ∃ first' rest', written.toList = first' :: rest' ∧ first'.toLower = first.toLower ∧
      rest'.map Char.toLower = rest.map Char.toLower := by
  have hlower : written.toList.map Char.toLower = name.toList.map Char.toLower := by
    simpa [sameIgnoringCase, ← String.toList_inj] using h
  rw [hname, List.map_cons] at hlower
  exact List.map_eq_cons_iff.mp hlower

/-- What holds of a character in every case holds of a name in every case. -/
theorem forall_of_map_toLower {P : Char → Prop} (hlower : ∀ c, P c.toLower ↔ P c)
    {text text' : List Char} (hsame : text'.map Char.toLower = text.map Char.toLower)
    (h : ∀ c ∈ text, P c) : ∀ c ∈ text', P c := by
  have hall : ∀ c ∈ text'.map Char.toLower, P c := by
    rw [hsame]
    exact List.forall_mem_map.mpr fun c hc => (hlower c).mpr (h c hc)
  exact fun c hc => (hlower c).mp (hall _ (List.mem_map_of_mem hc))

theorem SpellsTagName.of_sameIgnoringCase (h : SpellsTagName name)
    (hsame : sameIgnoringCase written name = true) : SpellsTagName written := by
  obtain ⟨first, rest, hname, hletter, hrest⟩ := h
  obtain ⟨first', rest', hwritten, hfirst, hlater⟩ := exists_of_sameIgnoringCase hsame hname
  refine ⟨first', rest', hwritten, ?_, ?_⟩
  · rw [← isAsciiLetter_toLower, hfirst, isAsciiLetter_toLower, hletter]
  · exact forall_of_map_toLower (fun c => by rw [endsName_toLower]) hlater hrest

theorem SpellsAttributeName.of_sameIgnoringCase (h : SpellsAttributeName name)
    (hsame : sameIgnoringCase written name = true) : SpellsAttributeName written := by
  obtain ⟨first, rest, hname, hchar, hrest⟩ := h
  obtain ⟨first', rest', hwritten, hfirst, hlater⟩ := exists_of_sameIgnoringCase hsame hname
  refine ⟨first', rest', hwritten, ?_, ?_⟩
  · rw [← endsName_toLower, hfirst, endsName_toLower, hchar]
  · have hequals : ∀ c : Char, c.toLower = '=' ↔ c = '=' := by
      intro c
      constructor
      · exact fun heq => not_imp_not.mp toLower_ne_equals heq
      · rintro rfl
        rfl
    exact forall_of_map_toLower (fun c => by rw [endsName_toLower, ne_eq, hequals]) hlater hrest

theorem asciiLower_eq_of_sameIgnoringCase (h : sameIgnoringCase written name = true) :
    asciiLower written = asciiLower name := by
  simpa [sameIgnoringCase] using h

/-! ### Between the parts -/

/-- A lexer that has read a part of a tag is in a state that says what the part ended with. -/
def Leaves : PartEnd → LexerState → Prop
  | .name, state => state = .tagName ∨ state = .attributeName
  | .quoted, state => state = .afterAttributeValueQuoted
  | .unquoted, state => state = .attributeValueUnquoted

theorem Leaves.isBetweenParts {last : PartEnd} {state : LexerState} (h : Leaves last state)
    (hlast : last ≠ .unquoted) : isBetweenParts state = true := by
  cases last with
  | name => rcases h with rfl | rfl <;> rfl
  | quoted =>
    rw [show state = .afterAttributeValueQuoted from h]
    rfl
  | unquoted => exact absurd rfl hlast

/-- Blanks before an attribute or a value are passed over. -/
theorem passes_blanks {state : LexerState}
    (hstate : state = .beforeAttributeName ∨ state = .beforeAttributeValue) {gap : List Char}
    (hgap : MarkupBlanks gap) (pending : Option Token) :
    Passes ⟨state, pending, []⟩ gap ⟨state, pending, []⟩ := by
  have htake : ∀ c ∈ gap, ∀ pending, Turn.take state pending c = Turn.goTo state pending := by
    intro c hc pending
    rcases hstate with rfl | rfl <;> exact if_pos (hgap c hc)
  exact passes_over (by rcases hstate with rfl | rfl <;> decide) htake pending

/-- States that read the first character alike read the text alike. -/
theorem passes_of_first {state state' : LexerState} {pending : Option Token} {first : Char}
    {rest : List Char} {l' : Lexer}
    (hfirst : read ⟨state, pending, []⟩ [first] = read ⟨state', pending, []⟩ [first])
    (h : Passes ⟨state', pending, []⟩ (first :: rest) l') :
    Passes ⟨state, pending, []⟩ (first :: rest) l' := by
  unfold Passes at h ⊢
  rw [← List.singleton_append, read_append] at h ⊢
  rw [hfirst]
  exact h

/-- Behind any part, blanks lead to where an attribute may begin. -/
theorem passes_gap {before : PartEnd} {state : LexerState} (h : Leaves before state)
    {gap : List Char} (hgap : MarkupBlanks gap) (hne : gap ≠ []) (pending : Option Token) :
    Passes ⟨state, pending, []⟩ gap ⟨.beforeAttributeName, pending, []⟩ := by
  obtain ⟨c, rest, rfl⟩ := List.exists_cons_of_ne_nil hne
  obtain ⟨hc, hrest⟩ := List.forall_mem_cons.mp hgap
  have hfirst : Passes ⟨state, pending, []⟩ [c] ⟨.beforeAttributeName, pending, []⟩ := by
    cases before with
    | name => rcases h with rfl | rfl <;> exact passes_singleton (by decide) (if_pos hc)
    | quoted | unquoted =>
      obtain rfl := h
      exact passes_singleton (by decide) (if_pos hc)
  exact hfirst.append (passes_blanks (.inl rfl) hrest pending)

/-- Behind a closing quote an attribute may begin at once. -/
theorem passes_glued {name : String} (h : SpellsAttributeName name) {pending : Option Token}
    {l' : Lexer} (hpasses : Passes ⟨.beforeAttributeName, pending, []⟩ name.toList l') :
    Passes ⟨.afterAttributeValueQuoted, pending, []⟩ name.toList l' := by
  obtain ⟨first, rest, hname, hchar, -⟩ := h
  obtain ⟨hspace, hslash, hclose⟩ := endsName_eq_false_iff.mp hchar
  have htake : Turn.take .afterAttributeValueQuoted pending first =
      Turn.handTo .beforeAttributeName pending := by
    show Turn.afterQuotedValue pending first = _
    simp [Turn.afterQuotedValue, hspace, hslash, hclose]
  rw [hname] at hpasses ⊢
  refine passes_of_first ?_ hpasses
  rw [read_of_again (by decide) (by rw [htake]; rfl) (by rw [htake]; rfl), htake]
  rfl

/-! ### Values -/

variable {tag : StartTag} {earlier : List Attribute} {last : Attribute} {value : String}

/-- An equals sign and blanks lead to where a value may begin. -/
theorem passes_equals {gap : List Char} (hgap : MarkupBlanks gap) (pending : Option Token) :
    Passes ⟨.attributeName, pending, []⟩ ('=' :: gap) ⟨.beforeAttributeValue, pending, []⟩ := by
  have hequals : Passes ⟨.attributeName, pending, []⟩ ['='] ⟨.beforeAttributeValue, pending, []⟩ :=
    passes_singleton (by decide) rfl
  exact hequals.append (passes_blanks (.inr rfl) hgap pending)

/-- **Each kind of quotes** has a state of its own, which only that quote leaves. -/
theorem exists_quotedState {quote : Char} (hquote : quote = '\"' ∨ quote = '\'') :
    ∃ state, state ≠ .markupDeclaration ∧ (∀ c, c ≠ quote → state.endsValue c = false) ∧
      ∀ pending, Turn.take .beforeAttributeValue pending quote = Turn.goTo state pending ∧
        Turn.take state pending quote = Turn.goTo .afterAttributeValueQuoted pending := by
  rcases hquote with rfl | rfl
  · exact ⟨.attributeValueDoubleQuoted, by decide, fun c hc => beq_false_of_ne hc,
      fun pending => ⟨rfl, rfl⟩⟩
  · exact ⟨.attributeValueSingleQuoted, by decide, fun c hc => beq_false_of_ne hc,
      fun pending => ⟨rfl, rfl⟩⟩

/-- A value in quotes. -/
theorem passes_quoted {quote : Char} (hquote : quote = '\"' ∨ quote = '\'')
    (hvalue : quote ∉ value.toList) (hlast : tag.attributes = earlier ++ [last]) :
    Passes ⟨.beforeAttributeValue, some (.startTag tag), []⟩ (quote :: (value.toList ++ [quote]))
      ⟨.afterAttributeValueQuoted,
        some (.startTag { tag with attributes := earlier ++ [last.pushText value] }), []⟩ := by
  obtain ⟨state, hstate, hstays, hquotes⟩ := exists_quotedState hquote
  have hopening := passes_singleton (by decide) (hquotes (some (.startTag tag))).1
  have hinside := passes_value hstate hlast fun c hc =>
    Turn.take_of_not_endsValue (hstays c (ne_of_mem_of_not_mem hc hvalue))
  exact hopening.append (hinside.append (passes_singleton hstate (hquotes _).2))

/-- A value without quotes begins with its first character. -/
theorem passes_unquoted (hne : value ≠ "")
    (hvalue : ∀ c ∈ value.toList, isMarkupSpace c = false ∧ c ≠ '>')
    (hfirst : ∀ c ∈ value.toList.head?, c ≠ '\"' ∧ c ≠ '\'')
    (hlast : tag.attributes = earlier ++ [last]) :
    Passes ⟨.beforeAttributeValue, some (.startTag tag), []⟩ value.toList
      ⟨.attributeValueUnquoted,
        some (.startTag { tag with attributes := earlier ++ [last.pushText value] }), []⟩ := by
  have hstays : ∀ c ∈ value.toList, LexerState.attributeValueUnquoted.endsValue c = false := by
    intro c hc
    simp [LexerState.endsValue, hvalue c hc]
  have hinside := passes_value (by decide) hlast fun c hc =>
    Turn.take_of_not_endsValue (hstays c hc)
  obtain ⟨first, rest, htext⟩ := List.exists_cons_of_ne_nil
    (show value.toList ≠ [] by simpa using hne)
  rw [htext] at hinside hstays hvalue hfirst ⊢
  obtain ⟨hspace, hclose⟩ := hvalue first List.mem_cons_self
  obtain ⟨hdouble, hsingle⟩ := hfirst first rfl
  have hgoesOn :=
    Turn.take_of_not_endsValue (hstays first List.mem_cons_self) (some (.startTag tag))
  have hbegins : Turn.take .beforeAttributeValue (some (.startTag tag)) first =
      Turn.goTo .attributeValueUnquoted
        (Turn.onTag (·.addToAttributeValue first) (some (.startTag tag))) := by
    show Turn.beforeAttributeValue _ first = _
    simp [Turn.beforeAttributeValue, hspace, hclose, hdouble, hsingle]
  refine passes_of_first ?_ hinside
  exact (passes_singleton (by decide) hbegins).trans (passes_singleton (by decide) hgoesOn).symm

/-- **What is written for a value** gives the attribute that value. -/
theorem passes_valueSpelledAs {text : List Char} {after : PartEnd}
    (h : ValueSpelledAs value after text) (hlast : tag.attributes = earlier ++ [last]) :
    ∃ state, Leaves after state ∧ Passes ⟨.attributeName, some (.startTag tag), []⟩ text
      ⟨state, some (.startTag
        { tag with attributes := earlier ++ [last.pushText value] }), []⟩ := by
  cases h with
  | nothing =>
    refine ⟨.attributeName, .inr rfl, ?_⟩
    rw [Attribute.pushText_empty, ← hlast]
    exact passes_nil _ _
  | quoted hquote hgap hvalue =>
    exact ⟨_, rfl, (passes_equals hgap _).append (passes_quoted hquote hvalue hlast)⟩
  | unquoted hgap hne hvalue hfirst =>
    exact ⟨_, rfl, (passes_equals hgap _).append (passes_unquoted hne hvalue hfirst hlast)⟩

/-! ### Attributes -/

/-- The beginning of an attribute, behind another part. -/
theorem passes_attributeBeginning {before : PartEnd} {state : LexerState}
    (hstate : Leaves before state) {gap : List Char} (hgap : MarkupBlanks gap)
    (hglued : gap = [] → before = .quoted) {name : String} (hname : SpellsAttributeName name)
    (tag : StartTag) :
    Passes ⟨state, some (.startTag tag), []⟩ (gap ++ name.toList)
      ⟨.attributeName, some (.startTag
        { tag with attributes := tag.attributes ++ [⟨asciiLower name, []⟩] }), []⟩ := by
  have hbegins := passes_spelledAttributeName tag hname
  by_cases hempty : gap = []
  · obtain rfl := hglued hempty
    obtain rfl := hstate
    rw [hempty, List.nil_append]
    exact passes_glued hname hbegins
  · exact (passes_gap hstate hgap hempty _).append hbegins

/-- **What is written for some attributes** adds them to the tag. -/
theorem passes_attributesSpelledAs {before last : PartEnd} {attributes : List (String × String)}
    {text : List Char} (h : AttributesSpelledAs before attributes last text)
    (hnames : ∀ a ∈ attributes, SpellsAttributeName a.1) :
    ∀ {state : LexerState} (tag : StartTag), Leaves before state →
      ∃ state', Leaves last state' ∧ Passes ⟨state, some (.startTag tag), []⟩ text
        ⟨state', some (.startTag
          { tag with attributes := tag.attributes ++ attributes.map Attribute.lowered }), []⟩ := by
  induction h with
  | nil last =>
    intro state tag hstate
    refine ⟨state, hstate, ?_⟩
    rw [List.map_nil, List.append_nil]
    exact passes_nil _ _
  | @cons before after last name value written rest gap text later hgap hglued hname hvalue hrest
      ih =>
    intro state tag hstate
    obtain ⟨hspells, hmore⟩ := List.forall_mem_cons.mp hnames
    have hbegins := passes_attributeBeginning hstate hgap hglued
      (hspells.of_sameIgnoringCase hname) tag
    rw [asciiLower_eq_of_sameIgnoringCase hname] at hbegins
    have hlast : ({ tag with attributes := tag.attributes ++ [⟨asciiLower name, []⟩] } :
        StartTag).attributes = tag.attributes ++ [⟨asciiLower name, []⟩] := rfl
    obtain ⟨state₁, hstate₁, hfirst⟩ := passes_valueSpelledAs hvalue hlast
    obtain ⟨state₂, hstate₂, hlater⟩ := ih hmore _ hstate₁
    refine ⟨state₂, hstate₂, ?_⟩
    have hall := (hbegins.append hfirst).append hlater
    simpa [Attribute.lowered, Attribute.ofText] using hall

/-! ### The whole tag -/

/-- **The end of a start tag**, with blanks before it, completes the tag. -/
theorem read_spelledEnd {last : PartEnd} {state : LexerState} (hstate : Leaves last state)
    {gap : List Char} (hgap : MarkupBlanks gap) {selfClosing : Bool}
    (hslash : selfClosing = true → last = .unquoted → gap ≠ []) (tag : Tag) :
    read ⟨state, some (.startTag { toTag := tag }), []⟩
        (gap ++ if selfClosing then ['/', '>'] else ['>']) =
      ([.startTag { toTag := tag, selfClosing }], ⟨.data, none, []⟩) := by
  have hend : ∀ {state : LexerState}, isBetweenParts state = true →
      read ⟨state, some (.startTag { toTag := tag }), []⟩
          (if selfClosing then ['/', '>'] else ['>']) =
        ([.startTag { toTag := tag, selfClosing }], ⟨.data, none, []⟩) := by
    intro state hbetween
    cases selfClosing with
    | true => exact read_selfClosingEnd hbetween _
    | false => exact read_tagEnd hbetween _
  by_cases hempty : gap = []
  · rw [hempty, List.nil_append]
    by_cases hlast : last = .unquoted
    · subst hlast
      obtain rfl := hstate
      have hself : selfClosing = false := Bool.eq_false_iff.mpr fun h => hslash h rfl hempty
      subst hself
      exact read_of_complete (by decide) rfl
    · exact hend (hstate.isBetweenParts hlast)
  · rw [read_append, passes_gap hstate hgap hempty, hend rfl]
    rfl

/-- **All spellings of a start tag say the same.**  However a start tag is written, the lexer reads
it as one token, with its names in lower case and its values as they are. -/
theorem tokenize_of_spelledAs {name : String} {attributes : List (String × String)}
    {selfClosing : Bool} {text : String} (hname : SpellsTagName name)
    (hnames : ∀ a ∈ attributes, SpellsAttributeName a.1)
    (h : StartTagSpelledAs name attributes selfClosing text.toList) :
    tokenize text = [.startTag
      { name := asciiLower name,
        attributes := attributes.map Attribute.lowered,
        selfClosing }] := by
  generalize htext : text.toList = chars at h
  obtain ⟨hwritten, hattributes, hgap, hslash⟩ := h
  have hbracket : Passes {} ['<'] ⟨.tagOpen, none, []⟩ := passes_singleton (by decide) rfl
  have hbegins := passes_spelledTagName (hname.of_sameIgnoringCase hwritten)
  rw [asciiLower_eq_of_sameIgnoringCase hwritten] at hbegins
  obtain ⟨state, hstate, hparts⟩ := passes_attributesSpelledAs hattributes hnames _ (.inl rfl)
  have hread := read_spelledEnd hstate hgap hslash
    { name := asciiLower name, attributes := attributes.map Attribute.lowered }
  have hall := (hbracket.append hbegins).append hparts
  rw [tokenize_eq_readAll, htext, ← List.singleton_append, ← List.append_assoc, ← List.append_assoc,
    readAll_append, hall, readAll]
  simp only [List.nil_append] at hread ⊢
  rw [hread]
  rfl

-- without the blank, the slash belongs to the value, and the tag does not end itself
example : tokenize "<a b=c/>" =
    [.startTag { name := "a", attributes := [⟨"b", [.text "c/"]⟩] }] := by
  cbv

/-- An attribute right behind a closing quote, one with nothing behind its name, and a value without
quotes that ends with a slash, so that a blank has to come before the slash of the tag. -/
theorem tokenize_of_spelledAs_with_slashes :
    SpellsTagName "a" ∧
      (∀ a ∈ [("id", "\""), ("off", ""), ("href", "/x/")], SpellsAttributeName a.1) ∧
      StartTagSpelledAs "a" [("id", "\""), ("off", ""), ("href", "/x/")] true
        "<A\tId= '\"'OFF href=/x/ />".toList ∧
      tokenize "<A\tId= '\"'OFF href=/x/ />" = [.startTag
        { name := "a", selfClosing := true,
          attributes := [⟨"id", [.text "\""]⟩, ⟨"off", []⟩, ⟨"href", [.text "/x/"]⟩] }] := by
  have hname : SpellsTagName "a" := ⟨'a', [], rfl, by decide, by simp⟩
  have hnames : ∀ a ∈ [("id", "\""), ("off", ""), ("href", "/x/")], SpellsAttributeName a.1 := by
    simp only [List.forall_mem_cons, List.not_mem_nil, false_implies, implies_true, and_true]
    exact ⟨⟨'i', ['d'], rfl, by decide, by simp; decide⟩,
      ⟨'o', ['f', 'f'], rfl, by decide, by simp; decide⟩,
      ⟨'h', ['r', 'e', 'f'], rfl, by decide, by simp; decide⟩⟩
  have hblank : MarkupBlanks [' '] ∧ MarkupBlanks ['\t'] ∧ MarkupBlanks [] := by
    simp [MarkupBlanks, isMarkupSpace]
  have hvalue : ∀ c ∈ "/x/".toList, isMarkupSpace c = false ∧ c ≠ '>' := by simp [isMarkupSpace]
  have hhref : AttributesSpelledAs .name [("href", "/x/")] .unquoted
      (" ".toList ++ ("href".toList ++ ("=/x/".toList ++ []))) :=
    .cons hblank.1 (by simp) (by decide) (.unquoted hblank.2.2 (by decide) hvalue (by simp))
      (.nil _)
  have hoff : AttributesSpelledAs .quoted [("off", ""), ("href", "/x/")] .unquoted
      ([] ++ ("OFF".toList ++ ([] ++ " href=/x/".toList))) :=
    .cons hblank.2.2 (by simp) (by decide) .nothing hhref
  have hid : AttributesSpelledAs .name [("id", "\""), ("off", ""), ("href", "/x/")] .unquoted
      ("\t".toList ++ ("Id".toList ++ ("= '\"'".toList ++ "OFF href=/x/".toList))) :=
    .cons hblank.2.1 (by simp) (by decide) (.quoted (.inr rfl) hblank.1 (by decide)) hoff
  have hcase : sameIgnoringCase "A" "a" = true := by decide
  have hall : StartTagSpelledAs "a" [("id", "\""), ("off", ""), ("href", "/x/")] true
      "<A\tId= '\"'OFF href=/x/ />".toList := .mk hcase hid hblank.1 (by simp)
  exact ⟨hname, hnames, hall, tokenize_of_spelledAs hname hnames hall⟩

end Lexer

end TemplateTree
