/-
What the lexer makes of the parts of markup.

Each part of a tag or a comment is read in a state of its own, character by character,
and completes no token before its last character.  `Passes` is reading of that kind, and
it composes, so a part is a loop on one state followed by the character that leaves it.
What a loop does to the token under construction is a fold over the characters, and each
fold comes to the same thing: the part is appended.

A comment is the one part with more than one state inside.  There the states differ only
in how many dashes they hold back, and `CommentAt` says what they have in common: the
text so far with those dashes is all that was read.
-/
import TemplateTree.Proofs.Names

namespace TemplateTree

namespace Lexer

theorem step?_of_unread_nil (state : LexerState) (pending : Option Token) :
    step? ⟨state, pending, []⟩ = none := by
  have hopening : commentOpening ⟨state, pending, []⟩ = .no := by
    unfold commentOpening
    split <;> rfl
  rw [step?, hopening]

/-- A character that is read once is one step. -/
theorem read_singleton {state : LexerState} (hstate : state ≠ .markupDeclaration)
    (pending : Option Token) {c : Char} (hagain : (Turn.take state pending c).again = false) :
    read ⟨state, pending, []⟩ [c] =
      ((Turn.take state pending c).completed.toList,
        ⟨(Turn.take state pending c).state, (Turn.take state pending c).pending, []⟩) := by
  have hopening : commentOpening ⟨state, pending, [c]⟩ = .no := by
    rw [commentOpening, if_neg hstate]
  have hstep : step? ⟨state, pending, [c]⟩ = some ((Turn.take state pending c).completed,
      ⟨(Turn.take state pending c).state, (Turn.take state pending c).pending, []⟩) := by
    simp [step?, hopening, hagain]
  simp only [read, extend, List.nil_append]
  cases hcompleted : (Turn.take state pending c).completed with
  | none =>
    rw [hcompleted] at hstep
    rw [run_of_step hstep, run_of_stop (step?_of_unread_nil _ _)]
    rfl
  | some token =>
    rw [hcompleted] at hstep
    rw [run_of_complete hstep, run_of_stop (step?_of_unread_nil _ _)]
    rfl

/-- Reading a text to its end, which completes no token. -/
def Passes (l : Lexer) (text : List Char) (l' : Lexer) : Prop :=
  l.read text = ([], l')

theorem Passes.append {l l' l'' : Lexer} {first second : List Char} (h₁ : l.Passes first l')
    (h₂ : l'.Passes second l'') : l.Passes (first ++ second) l'' := by
  unfold Passes at h₁ h₂ ⊢
  rw [read_append, h₁, h₂]
  rfl

theorem passes_nil (state : LexerState) (pending : Option Token) :
    Passes ⟨state, pending, []⟩ [] ⟨state, pending, []⟩ := by
  rw [Passes, read, extend_nil, run_of_stop (step?_of_unread_nil state pending)]

theorem passes_singleton {state state' : LexerState} (hstate : state ≠ .markupDeclaration)
    {pending pending' : Option Token} {c : Char}
    (h : Turn.take state pending c = Turn.goTo state' pending') :
    Passes ⟨state, pending, []⟩ [c] ⟨state', pending', []⟩ := by
  rw [Passes, read_singleton hstate pending (by rw [h]; rfl), h]
  rfl

/-- A character that completes the token under construction. -/
theorem read_of_complete {state state' : LexerState} (hstate : state ≠ .markupDeclaration)
    {pending : Option Token} {token : Token} {c : Char}
    (h : Turn.take state pending c = Turn.complete state' (some token)) :
    read ⟨state, pending, []⟩ [c] = ([token], ⟨state', none, []⟩) := by
  rw [read_singleton hstate pending (by rw [h]; rfl), h]
  rfl

/-- Characters that do not leave a state are taken one by one. -/
theorem passes_loop {state : LexerState} (hstate : state ≠ .markupDeclaration)
    {add : Option Token → Char → Option Token} :
    ∀ (text : List Char),
      (∀ c ∈ text, ∀ pending, Turn.take state pending c = Turn.goTo state (add pending c)) →
        ∀ pending, Passes ⟨state, pending, []⟩ text ⟨state, text.foldl add pending, []⟩ := by
  intro text
  induction text with
  | nil =>
    intro _ pending
    exact passes_nil state pending
  | cons c rest ih =>
    intro htake pending
    have hfirst := passes_singleton hstate (htake c (by simp) pending)
    have hrest := ih (fun d hd => htake d (by simp [hd])) (add pending c)
    exact hfirst.append hrest

/-- Characters that change nothing are passed over. -/
theorem passes_over {state : LexerState} (hstate : state ≠ .markupDeclaration) {text : List Char}
    (htake : ∀ c ∈ text, ∀ pending, Turn.take state pending c = Turn.goTo state pending)
    (pending : Option Token) : Passes ⟨state, pending, []⟩ text ⟨state, pending, []⟩ := by
  have hloop := @passes_loop state hstate (fun pending _ => pending) text htake pending
  rwa [List.foldl_fixed] at hloop

end Lexer

/-! ### Adding characters -/

/-- A text is its first character and the rest. -/
theorem singleton_append_ofList {text : String} {first : Char} {rest : List Char}
    (h : text.toList = first :: rest) : String.singleton first ++ String.ofList rest = text := by
  apply String.toList_inj.mp
  simp [h]

/-- What is added one character after another is added as one text. -/
theorem foldl_eq_add {α : Type} {step : α → Char → α} {add : α → String → α}
    (hempty : ∀ a, add a "" = a) :
    ∀ (text : List Char),
      (∀ c ∈ text, ∀ a more, add (step a c) more = add a (String.singleton c ++ more)) →
        ∀ a, text.foldl step a = add a (String.ofList text) := by
  intro text
  induction text with
  | nil =>
    intro _ a
    exact (hempty a).symm
  | cons c rest ih =>
    intro hstep a
    have hrest := ih (fun d hd => hstep d (by simp [hd])) (step a c)
    rw [List.foldl_cons, hrest, hstep c (by simp), singleton_append_ofList String.toList_ofList]

/-! ### Appending to a tag -/

theorem Token.modifyTag_modifyTag (first second : Tag → Tag) (token : Token) :
    (token.modifyTag first).modifyTag second = token.modifyTag fun tag => second (first tag) := by
  cases token <;> rfl

/-- A tag is changed by one character after another. -/
theorem Turn.foldl_onTag (change : Char → Tag → Tag) :
    ∀ (text : List Char) (token : Token),
      text.foldl (fun pending c => onTag (change c) pending) (some token) =
        some (token.modifyTag fun tag => text.foldl (fun tag c => change c tag) tag) := by
  intro text
  induction text with
  | nil => intro token; cases token <;> rfl
  | cons c rest ih =>
    intro token
    rw [List.foldl_cons, onTag, Option.map_some, ih, Token.modifyTag_modifyTag]
    rfl

/-- A character of a name: it ends no name, and is its own lower form. -/
def isNameChar (c : Char) : Bool :=
  !isMarkupSpace c && c != '/' && c != '>' && !c.isUpper

theorem isNameChar_iff {c : Char} :
    isNameChar c = true ↔ isMarkupSpace c = false ∧ c ≠ '/' ∧ c ≠ '>' ∧ c.isUpper = false := by
  simp [isNameChar, and_assoc]

theorem toLower_of_isNameChar {c : Char} (h : isNameChar c = true) : c.toLower = c := by
  obtain ⟨-, -, -, hupper⟩ := isNameChar_iff.mp h
  exact Char.toLower_eq_of_not_isUpper (by simp [hupper])

theorem asciiLower_of_isNameChar {name : String} (h : ∀ c ∈ name.toList, isNameChar c = true) :
    asciiLower name = name := by
  apply String.toList_inj.mp
  rw [toList_asciiLower, List.map_congr_left fun c hc => toLower_of_isNameChar (h c hc), List.map_id']

/-- Does a character end the name of a tag? -/
def endsName (c : Char) : Bool :=
  isMarkupSpace c || c == '/' || c == '>'

theorem endsName_eq_false_iff {c : Char} :
    endsName c = false ↔ isMarkupSpace c = false ∧ c ≠ '/' ∧ c ≠ '>' := by
  simp [endsName, and_assoc]

theorem endsName_of_isNameChar {c : Char} (h : isNameChar c = true) : endsName c = false := by
  obtain ⟨hspace, hslash, hclose, -⟩ := isNameChar_iff.mp h
  exact endsName_eq_false_iff.mpr ⟨hspace, hslash, hclose⟩

/-- Characters that are pushed one by one are lowered as one text. -/
theorem push_toLower_append (name more : String) (c : Char) :
    name.push c.toLower ++ asciiLower more = name ++ asciiLower (String.singleton c ++ more) := by
  apply String.toList_inj.mp
  simp

theorem asciiLower_cons {c : Char} {rest : List Char} {text : String} (h : text.toList = c :: rest) :
    String.singleton c.toLower ++ asciiLower (String.ofList rest) = asciiLower text := by
  apply String.toList_inj.mp
  simp [h]

namespace Tag

/-- Characters that are added to a name are lowered. -/
theorem foldl_addToName (text : List Char) (tag : Tag) :
    text.foldl (fun tag c => tag.addToName c) tag =
      { tag with name := tag.name ++ asciiLower (String.ofList text) } := by
  refine @foldl_eq_add Tag _ (fun tag added => { tag with name := tag.name ++ asciiLower added })
    ?_ text ?_ tag
  · intro tag
    simp [asciiLower]
  · intro c hc tag more
    simp only [addToName, push_toLower_append]

theorem modifyLast_append (change : Attribute → Attribute) (earlier : List Attribute)
    (last : Attribute) : modifyLast change (earlier ++ [last]) = earlier ++ [change last] := by
  induction earlier with
  | nil => rfl
  | cons a rest ih =>
    cases rest with
    | nil => rfl
    | cons b more =>
      simp only [List.cons_append] at ih ⊢
      rw [modifyLast, ih]
      simp

/-- The attribute begun last is changed by one character after another. -/
theorem foldl_modifyLast (change : Char → Attribute → Attribute) {earlier : List Attribute} :
    ∀ (text : List Char) {tag : Tag} {last : Attribute}, tag.attributes = earlier ++ [last] →
      text.foldl (fun tag c => { tag with attributes := modifyLast (change c) tag.attributes }) tag =
        { tag with attributes := earlier ++ [text.foldl (fun a c => change c a) last] } := by
  intro text
  induction text with
  | nil =>
    intro tag last hlast
    simp only [List.foldl_nil, ← hlast]
  | cons c rest ih =>
    intro tag last hlast
    simp only [List.foldl_cons, hlast, modifyLast_append]
    exact ih rfl

end Tag

namespace Attribute

theorem pushText_pushText (a : Attribute) (first second : String) :
    (a.pushText first).pushText second = a.pushText (first ++ second) := by
  by_cases hfirst : first = ""
  · simp [hfirst]
  by_cases hsecond : second = ""
  · simp [hsecond]
  have hboth : first ++ second ≠ "" := fun h => hfirst (String.append_eq_empty_iff.mp h).1
  simp [pushText, hfirst, hsecond, hboth, Fragment.join_join]

theorem foldl_pushChar (text : List Char) (a : Attribute) :
    text.foldl (fun a c => a.pushChar c) a = a.pushText (String.ofList text) := by
  refine foldl_eq_add ?_ text ?_ a
  · intro a
    simp
  · intro c _ a more
    rw [pushChar, pushText_pushText]
    rfl

theorem foldl_addToName (text : List Char) (a : Attribute) :
    text.foldl (fun a c => { a with name := a.name.push c.toLower }) a =
      { a with name := a.name ++ asciiLower (String.ofList text) } := by
  refine @foldl_eq_add Attribute _ (fun a added => { a with name := a.name ++ asciiLower added })
    ?_ text ?_ a
  · intro a
    simp [asciiLower]
  · intro c hc a more
    simp only [push_toLower_append]

end Attribute

namespace Lexer

/-! ### Text -/

/-- Only a run of text is under construction here, so the run stands for the token. -/
theorem foldl_addText (text : List Char) (before : String) :
    text.foldl (fun pending c => Turn.addText c pending) (some (.text before)) =
      some (.text (before ++ String.ofList text)) := by
  induction text generalizing before with
  | nil => simp
  | cons c rest ih =>
    rw [List.foldl_cons, Turn.addText, ih, String.push_eq_append, String.append_assoc,
      singleton_append_ofList String.toList_ofList]

/-- **Text without a bracket goes on the run of text**, or begins one. -/
theorem passes_text {content : String} (hne : content ≠ "") (h : '<' ∉ content.toList) :
    Passes ⟨.data, none, []⟩ content.toList ⟨.data, some (.text content), []⟩ ∧
      ∀ before : String, Passes ⟨.data, some (.text before), []⟩ content.toList
        ⟨.data, some (.text (before ++ content)), []⟩ := by
  have htake : ∀ c ∈ content.toList, ∀ pending,
      Turn.take .data pending c = Turn.goTo .data (Turn.addText c pending) := by
    intro c hc pending
    have hbracket : c ≠ '<' := fun heq => h (heq ▸ hc)
    show Turn.data pending c = _
    simp [Turn.data, hbracket]
  have hloop := passes_loop (by decide) content.toList htake
  refine ⟨?_, ?_⟩
  · have hfresh := hloop none
    obtain ⟨first, rest, hcontent⟩ :=
      List.exists_cons_of_ne_nil (show content.toList ≠ [] by simpa using hne)
    have hfold : content.toList.foldl (fun pending c => Turn.addText c pending) none =
        some (.text content) := by
      rw [hcontent, List.foldl_cons, Turn.addText, foldl_addText]
      · exact congrArg (fun text => some (Token.text text)) (singleton_append_ofList hcontent)
      · simp
    rw [hfold] at hfresh
    exact hfresh
  · intro before
    have hmore := hloop (some (.text before))
    rw [foldl_addText, String.ofList_toList] at hmore
    exact hmore

/-! ### The parts of a tag -/

/-- A tag of either kind, with the name that its first letter begins. -/
theorem passes_restOfName {token : Token} {text : List Char} (h : ∀ c ∈ text, endsName c = false) :
    Passes ⟨.tagName, some token, []⟩ text
      ⟨.tagName, some (token.modifyTag fun tag =>
        { tag with name := tag.name ++ asciiLower (String.ofList text) }), []⟩ := by
  have htake : ∀ c ∈ text, ∀ pending,
      Turn.take .tagName pending c = Turn.goTo .tagName (Turn.onTag (·.addToName c) pending) := by
    intro c hc pending
    obtain ⟨hspace, hslash, hclose⟩ := endsName_eq_false_iff.mp (h c hc)
    show Turn.tagName pending c = _
    simp [Turn.tagName, hspace, hslash, hclose]
  have hloop := passes_loop (by decide) text htake (some token)
  rw [Turn.foldl_onTag fun c tag => tag.addToName c] at hloop
  simp only [Tag.foldl_addToName] at hloop
  exact hloop

/-- The state between two parts of a tag, right after a part or after a blank. -/
def isBetweenParts : LexerState → Bool
  | .tagName | .beforeAttributeName | .attributeName | .afterAttributeValueQuoted => true
  | _ => false

/-- The states between two parts agree on what follows a part: a blank, a slash or the
bracket that completes the tag. -/
theorem take_of_isBetweenParts {state : LexerState} (h : isBetweenParts state = true)
    (pending : Option Token) :
    state ≠ .markupDeclaration ∧
      Turn.take state pending ' ' = Turn.goTo .beforeAttributeName pending ∧
      Turn.take state pending '/' = Turn.goTo .selfClosingStartTag pending ∧
      Turn.take state pending '>' = Turn.complete .data pending := by
  cases state with
  | tagName | beforeAttributeName | attributeName | afterAttributeValueQuoted =>
    exact ⟨by decide, rfl, rfl, rfl⟩
  | _ => simp [isBetweenParts] at h

theorem passes_blank {state : LexerState} (h : isBetweenParts state = true)
    (pending : Option Token) :
    Passes ⟨state, pending, []⟩ [' '] ⟨.beforeAttributeName, pending, []⟩ := by
  obtain ⟨hstate, hblank, -, -⟩ := take_of_isBetweenParts h pending
  exact passes_singleton hstate hblank

/-- The name of an attribute.  An equals sign ends a name, unless it begins it. -/
def IsAttributeName (name : String) : Prop :=
  ∃ first rest, name.toList = first :: rest ∧ isNameChar first = true ∧
    ∀ c ∈ rest, isNameChar c = true ∧ c ≠ '='

/-- The name of an attribute in any case. -/
def SpellsAttributeName (name : String) : Prop :=
  ∃ first rest, name.toList = first :: rest ∧ endsName first = false ∧
    ∀ c ∈ rest, endsName c = false ∧ c ≠ '='

/-- **A name between the parts of a tag begins an attribute**, and is lowered. -/
theorem passes_spelledAttributeName (tag : StartTag) {name : String} (h : SpellsAttributeName name) :
    Passes ⟨.beforeAttributeName, some (.startTag tag), []⟩ name.toList
      ⟨.attributeName, some (.startTag
        { tag with attributes := tag.attributes ++ [⟨asciiLower name, []⟩] }), []⟩ := by
  obtain ⟨first, rest, hname, hchar, hrest⟩ := h
  rw [hname]
  have hfirst : Turn.take .beforeAttributeName (some (.startTag tag)) first =
      Turn.goTo .attributeName (some (.startTag
        { tag with attributes := tag.attributes ++ [⟨first.toLower.toString, []⟩] })) := by
    obtain ⟨hspace, hslash, hclose⟩ := endsName_eq_false_iff.mp hchar
    show Turn.beforeAttributeName _ first = _
    simp [Turn.beforeAttributeName, hspace, hslash, hclose, Turn.onTag, Token.modifyTag,
      Tag.startAttribute]
  have htake : ∀ c ∈ rest, ∀ pending, Turn.take .attributeName pending c =
      Turn.goTo .attributeName (Turn.onTag (·.addToAttributeName c) pending) := by
    intro c hc pending
    obtain ⟨hgoesOn, hequals⟩ := hrest c hc
    obtain ⟨hspace, hslash, hclose⟩ := endsName_eq_false_iff.mp hgoesOn
    show Turn.attributeName pending c = _
    simp [Turn.attributeName, hspace, hslash, hclose, hequals]
  have hloop := passes_loop (by decide) rest htake (some (.startTag
    { tag with attributes := tag.attributes ++ [⟨first.toLower.toString, []⟩] }))
  rw [Turn.foldl_onTag fun c tag => tag.addToAttributeName c] at hloop
  have hall := (passes_singleton (by decide) hfirst).append hloop
  have hfold := @Tag.foldl_modifyLast (fun c a => { a with name := a.name.push c.toLower })
    tag.attributes rest { tag.toTag with attributes := tag.attributes ++ [⟨first.toLower.toString, []⟩] }
    ⟨first.toLower.toString, []⟩ rfl
  have hjoined : first.toLower.toString ++ asciiLower (String.ofList rest) = asciiLower name :=
    asciiLower_cons hname
  rw [Attribute.foldl_addToName rest, hjoined] at hfold
  simp only [Token.modifyTag, Tag.addToAttributeName, hfold] at hall
  exact hall

theorem IsAttributeName.spells {name : String} (h : IsAttributeName name) :
    SpellsAttributeName name ∧ asciiLower name = name := by
  obtain ⟨first, rest, hname, hfirst, hrest⟩ := h
  refine ⟨⟨first, rest, hname, endsName_of_isNameChar hfirst, fun c hc =>
    ⟨endsName_of_isNameChar (hrest c hc).1, (hrest c hc).2⟩⟩, ?_⟩
  refine asciiLower_of_isNameChar ?_
  rw [hname, List.forall_mem_cons]
  exact ⟨hfirst, fun c hc => (hrest c hc).1⟩

/-- A name in lower case is kept. -/
theorem passes_attributeName (tag : StartTag) {name : String} (h : IsAttributeName name) :
    Passes ⟨.beforeAttributeName, some (.startTag tag), []⟩ name.toList
      ⟨.attributeName,
        some (.startTag { tag with attributes := tag.attributes ++ [⟨name, []⟩] }), []⟩ := by
  have hpasses := passes_spelledAttributeName tag h.spells.1
  rwa [h.spells.2] at hpasses

/-- An equals sign and a double quote begin a value. -/
theorem passes_valueOpening (pending : Option Token) :
    Passes ⟨.attributeName, pending, []⟩ ['=', '\"']
      ⟨.attributeValueDoubleQuoted, pending, []⟩ := by
  have hequals : Passes ⟨.attributeName, pending, []⟩ ['='] ⟨.beforeAttributeValue, pending, []⟩ :=
    passes_singleton (by decide) rfl
  exact hequals.append (passes_singleton (by decide) rfl)

/-- **Text inside a value is added to it**, in a state that keeps to each of its characters. -/
theorem passes_value {state : LexerState} (hstate : state ≠ .markupDeclaration) {tag : StartTag}
    {earlier : List Attribute} {last : Attribute} (hlast : tag.attributes = earlier ++ [last])
    {content : String}
    (htake : ∀ c ∈ content.toList, ∀ pending,
      Turn.take state pending c = Turn.goTo state (Turn.onTag (·.addToAttributeValue c) pending)) :
    Passes ⟨state, some (.startTag tag), []⟩ content.toList
      ⟨state,
        some (.startTag { tag with attributes := earlier ++ [last.pushText content] }), []⟩ := by
  have hloop := passes_loop hstate content.toList htake (some (.startTag tag))
  rw [Turn.foldl_onTag fun c tag => tag.addToAttributeValue c] at hloop
  have hfold := Tag.foldl_modifyLast (fun c a => a.pushChar c) content.toList hlast
  rw [Attribute.foldl_pushChar, String.ofList_toList] at hfold
  simp only [Token.modifyTag, Tag.addToAttributeValue, hfold] at hloop
  exact hloop

/-- Inside double quotes, every character but these is kept to. -/
theorem passes_valueText {tag : StartTag} {earlier : List Attribute} {last : Attribute}
    (hlast : tag.attributes = earlier ++ [last]) {content : String} (h : '\"' ∉ content.toList) :
    Passes ⟨.attributeValueDoubleQuoted, some (.startTag tag), []⟩ content.toList
      ⟨.attributeValueDoubleQuoted,
        some (.startTag { tag with attributes := earlier ++ [last.pushText content] }), []⟩ := by
  refine passes_value (by decide) hlast fun c hc pending => ?_
  have hquote : c ≠ '\"' := fun heq => h (heq ▸ hc)
  show Turn.quotedValue '\"' .attributeValueDoubleQuoted pending c = _
  simp [Turn.quotedValue, hquote]

theorem passes_valueEnd (pending : Option Token) :
    Passes ⟨.attributeValueDoubleQuoted, pending, []⟩ ['\"']
      ⟨.afterAttributeValueQuoted, pending, []⟩ :=
  passes_singleton (by decide) rfl

/-- A bracket between the parts of a tag completes it. -/
theorem read_tagEnd {state : LexerState} (h : isBetweenParts state = true) (token : Token) :
    read ⟨state, some token, []⟩ ['>'] = ([token], ⟨.data, none, []⟩) := by
  obtain ⟨hstate, -, -, hclose⟩ := take_of_isBetweenParts h (some token)
  exact read_of_complete hstate hclose

/-- A slash before the bracket completes a start tag as one that ends itself. -/
theorem read_selfClosingEnd {state : LexerState} (h : isBetweenParts state = true)
    (tag : StartTag) :
    read ⟨state, some (.startTag tag), []⟩ ['/', '>'] =
      ([.startTag { tag with selfClosing := true }], ⟨.data, none, []⟩) := by
  have hslash : Passes ⟨state, some (.startTag tag), []⟩ ['/']
      ⟨.selfClosingStartTag, some (.startTag tag), []⟩ := by
    obtain ⟨hstate, -, hslash, -⟩ := take_of_isBetweenParts h (some (.startTag tag))
    exact passes_singleton hstate hslash
  have hclose : read ⟨.selfClosingStartTag, some (.startTag tag), []⟩ ['>'] =
      ([.startTag { tag with selfClosing := true }], ⟨.data, none, []⟩) :=
    read_of_complete (by decide) rfl
  rw [show ['/', '>'] = ['/'] ++ ['>'] from rfl, read_append, hslash, hclose]
  rfl

/-! ### The beginnings of markup -/

/-- The name of a tag: a lower-case letter, and what may go on a name. -/
def IsTagName (name : String) : Prop :=
  ∃ first rest, name.toList = first :: rest ∧ first.isLower = true ∧
    ∀ c ∈ rest, isNameChar c = true

/-- A letter begins a name, and may go on one. -/
theorem letter_of_isAsciiLetter {c : Char} (h : isAsciiLetter c = true) :
    c ≠ '!' ∧ endsName c = false := by
  refine ⟨?_, ?_⟩
  · rintro rfl
    cases h
  · rw [Bool.eq_false_iff]
    intro hends
    simp only [endsName, isMarkupSpace, Bool.or_eq_true, beq_iff_eq] at hends
    rcases hends with (((((rfl | rfl) | rfl) | rfl) | rfl) | rfl) | rfl <;> cases h

/-- A lower-case letter is a letter, and its own lower form. -/
theorem letter_of_isLower {c : Char} (h : c.isLower = true) :
    isAsciiLetter c = true ∧ isNameChar c = true := by
  have hletter : isAsciiLetter c = true := by
    simp only [isAsciiLetter, Bool.or_eq_true]
    exact Or.inl h
  obtain ⟨hspace, hslash, hclose⟩ := endsName_eq_false_iff.mp (letter_of_isAsciiLetter hletter).2
  refine ⟨hletter, isNameChar_iff.mpr ⟨hspace, hslash, hclose, ?_⟩⟩
  simpa using Char.not_isUpper_of_isLower h

/-- The name of a tag in any case: a letter, and what ends no name. -/
def SpellsTagName (name : String) : Prop :=
  ∃ first rest, name.toList = first :: rest ∧ isAsciiLetter first = true ∧
    ∀ c ∈ rest, endsName c = false

theorem IsTagName.spells {name : String} (h : IsTagName name) :
    SpellsTagName name ∧ asciiLower name = name := by
  obtain ⟨first, rest, hname, hfirst, hrest⟩ := h
  obtain ⟨hletter, hchar⟩ := letter_of_isLower hfirst
  refine ⟨⟨first, rest, hname, hletter, fun c hc => endsName_of_isNameChar (hrest c hc)⟩, ?_⟩
  refine asciiLower_of_isNameChar ?_
  rw [hname, List.forall_mem_cons]
  exact ⟨hchar, hrest⟩

/-- **A name after an opening bracket begins a start tag**, and is lowered. -/
theorem passes_spelledTagName {name : String} (h : SpellsTagName name) :
    Passes ⟨.tagOpen, none, []⟩ name.toList
      ⟨.tagName, some (.startTag { name := asciiLower name }), []⟩ := by
  obtain ⟨first, rest, hname, hletter, hrest⟩ := h
  obtain ⟨hmark, hends⟩ := letter_of_isAsciiLetter hletter
  obtain ⟨hspace, hslash, -⟩ := endsName_eq_false_iff.mp hends
  have htake : Turn.take .tagOpen none first =
      Turn.goTo .tagName (some (.startTag (.named first.toString))) := by
    show Turn.tagOpen none first = _
    simp [Turn.tagOpen, hmark, hspace, hslash, hletter]
  have hall := (passes_singleton (by decide) htake).append (passes_restOfName hrest)
  rw [← asciiLower_cons hname, hname]
  simpa [Token.modifyTag, StartTag.named, Tag.named, asciiLower] using hall

/-- A name in lower case is kept. -/
theorem passes_startTagName {name : String} (h : IsTagName name) :
    Passes ⟨.tagOpen, none, []⟩ name.toList
      ⟨.tagName, some (.startTag { name }), []⟩ := by
  have hpasses := passes_spelledTagName h.spells.1
  rwa [h.spells.2] at hpasses

/-- A name after an opening bracket and a slash begins an end tag. -/
theorem passes_endTagName {name : String} (h : IsTagName name) :
    Passes ⟨.endTagOpen, none, []⟩ name.toList
      ⟨.tagName, some (.endTag { name }), []⟩ := by
  obtain ⟨⟨first, rest, hname, hletter, hrest⟩, hlower⟩ := h.spells
  have htake : Turn.take .endTagOpen none first =
      Turn.goTo .tagName (some (.endTag (.named first.toString))) := by
    show Turn.endTagOpen none first = _
    simp [Turn.endTagOpen, hletter]
  have hall := (passes_singleton (by decide) htake).append (passes_restOfName hrest)
  have hsplit := asciiLower_cons hname
  rw [hlower] at hsplit
  rw [hname, ← hsplit]
  simpa [Token.modifyTag, Tag.named, asciiLower] using hall

/-! ### Comments -/

/-- The lexer is inside a comment of which `raw` was read so far: the text under
construction, with the dashes that the state holds back.  Up to the first character that
is no dash, the text is empty. -/
structure CommentAt (raw : String) (state : LexerState) (content : String) : Prop where
  inComment : state.isInComment = true
  raw_eq : content ++ heldDashes state = raw
  start : state = .commentStart ∨ state = .commentStartDash → content = ""

/-- Dashes held back and one more character go on a comment. -/
theorem commentAt_goOn {raw content held : String} {state : LexerState}
    (hstate : state ≠ .markupDeclaration) (hraw : content ++ held = raw) {c : Char}
    (htake : Turn.take state (some (.comment content)) c =
      Turn.comment held (some (.comment content)) c) :
    ∃ state' content', CommentAt (raw.push c) state' content' ∧
      Passes ⟨state, some (.comment content), []⟩ [c] ⟨state', some (.comment content'), []⟩ := by
  refine ⟨.comment, content ++ held.push c, ⟨rfl, ?_, by simp⟩, passes_singleton hstate htake⟩
  apply String.toList_inj.mp
  simp [← hraw, heldDashes]

/-- **A comment goes on by the character that is read**, unless that ends it: a closing
bracket after two dashes, or after nothing but a dash at most. -/
theorem commentAt_push {raw content : String} {state : LexerState}
    (h : CommentAt raw state content) {c : Char}
    (hnot : c = '>' → raw ≠ "" ∧ raw ≠ "-" ∧ ¬ "--".toList <:+ raw.toList) :
    ∃ state' content', CommentAt (raw.push c) state' content' ∧
      Passes ⟨state, some (.comment content), []⟩ [c] ⟨state', some (.comment content'), []⟩ := by
  obtain ⟨hin, hraw, hstart⟩ := h
  have hdashed : ∀ {first : String}, first ++ "-" = raw → first ++ "--" = raw.push '-' := by
    intro first hfirst
    apply String.toList_inj.mp
    simp [← hfirst]
  cases state with
  | commentStart =>
    have hcontent : content = "" := hstart (Or.inl rfl)
    by_cases hdash : c = '-'
    · subst hdash
      refine ⟨.commentStartDash, content, ⟨rfl, ?_, fun _ => hcontent⟩,
        passes_singleton (by decide) rfl⟩
      simp [← hraw, heldDashes, hcontent]
    · have hbracket : c ≠ '>' := fun heq => (hnot heq).1 (by simp [← hraw, hcontent, heldDashes])
      refine commentAt_goOn (by decide) hraw ?_
      show Turn.commentStart _ c = _
      simp [Turn.commentStart, hdash, hbracket, heldDashes]
  | commentStartDash =>
    have hcontent : content = "" := hstart (Or.inr rfl)
    by_cases hdash : c = '-'
    · subst hdash
      exact ⟨.commentEnd, content, ⟨rfl, hdashed hraw, by simp⟩,
        passes_singleton (by decide) rfl⟩
    · have hbracket : c ≠ '>' := fun heq => (hnot heq).2.1 (by simp [← hraw, hcontent, heldDashes])
      refine commentAt_goOn (by decide) hraw ?_
      show Turn.commentStartDash _ c = _
      simp [Turn.commentStartDash, hdash, hbracket, heldDashes]
  | comment =>
    by_cases hdash : c = '-'
    · subst hdash
      refine ⟨.commentEndDash, content, ⟨rfl, ?_, by simp⟩, passes_singleton (by decide) rfl⟩
      apply String.toList_inj.mp
      simp [← hraw, heldDashes]
    · refine commentAt_goOn (by decide) hraw ?_
      show Turn.insideComment _ c = _
      simp [Turn.insideComment, hdash, heldDashes]
  | commentEndDash =>
    by_cases hdash : c = '-'
    · subst hdash
      exact ⟨.commentEnd, content, ⟨rfl, hdashed hraw, by simp⟩,
        passes_singleton (by decide) rfl⟩
    · refine commentAt_goOn (by decide) hraw ?_
      show Turn.commentEndDash _ c = _
      simp [Turn.commentEndDash, hdash, heldDashes]
  | commentEnd =>
    by_cases hdash : c = '-'
    · subst hdash
      refine ⟨.commentEnd, content ++ "-", ⟨rfl, ?_, by simp⟩, passes_singleton (by decide) rfl⟩
      apply String.toList_inj.mp
      simp [← hraw, heldDashes]
    · have hbracket : c ≠ '>' := by
        intro heq
        exact (hnot heq).2.2 ⟨content.toList, by simp [← hraw, heldDashes]⟩
      refine commentAt_goOn (by decide) hraw ?_
      show Turn.commentEnd _ c = _
      simp [Turn.commentEnd, hdash, hbracket, heldDashes]
  | _ => cases hin

/-- The text of a comment: nothing in it would end the comment. -/
structure IsCommentText (content : String) : Prop where
  noEnd : ¬ "-->".toList <:+: content.toList
  noBracket : ¬ ">".toList <+: content.toList
  noDashBracket : ¬ "->".toList <+: content.toList

theorem commentAt_append {content : String} (h : IsCommentText content) :
    ∀ (rest : List Char) {raw text : String} {state : LexerState}, CommentAt raw state text →
      raw.toList ++ rest = content.toList →
      ∃ state' text', CommentAt content state' text' ∧
        Passes ⟨state, some (.comment text), []⟩ rest ⟨state', some (.comment text'), []⟩ := by
  intro rest
  induction rest with
  | nil =>
    intro raw text state hat hcontent
    have hraw : raw = content := String.toList_inj.mp (by simpa using hcontent)
    exact ⟨state, text, hraw ▸ hat, passes_nil _ _⟩
  | cons c rest ih =>
    intro raw text state hat hcontent
    have hnot : c = '>' → raw ≠ "" ∧ raw ≠ "-" ∧ ¬ "--".toList <:+ raw.toList := by
      rintro rfl
      refine ⟨?_, ?_, ?_⟩
      · rintro rfl
        exact h.noBracket ⟨rest, by simpa using hcontent⟩
      · rintro rfl
        exact h.noDashBracket ⟨rest, by simpa using hcontent⟩
      · rintro ⟨before, hbefore⟩
        exact h.noEnd ⟨before, rest, by rw [← hcontent, ← hbefore]; simp⟩
    obtain ⟨state', text', hat', hpasses⟩ := commentAt_push hat hnot
    obtain ⟨state'', text'', hat'', hpasses'⟩ := ih hat' (by simpa using hcontent)
    exact ⟨state'', text'', hat'', hpasses.append hpasses'⟩

/-- Two dashes lead to the end of a comment, and what was read before is its text. -/
theorem passes_dashes {raw content : String} {state : LexerState}
    (h : CommentAt raw state content) :
    Passes ⟨state, some (.comment content), []⟩ ['-', '-']
      ⟨.commentEnd, some (.comment raw), []⟩ := by
  obtain ⟨hin, rfl, -⟩ := h
  have hdash : ∀ {state' state'' : LexerState} {content' content'' : String},
      Passes ⟨state, some (.comment content), []⟩ ['-'] ⟨state', some (.comment content'), []⟩ →
      Passes ⟨state', some (.comment content'), []⟩ ['-'] ⟨state'', some (.comment content''), []⟩ →
      Passes ⟨state, some (.comment content), []⟩ ['-', '-']
        ⟨state'', some (.comment content''), []⟩ :=
    fun h₁ h₂ => h₁.append h₂
  cases state with
  | commentStart | comment =>
    simp only [heldDashes, String.append_empty]
    exact hdash (passes_singleton (by decide) rfl) (passes_singleton (by decide) rfl)
  | commentStartDash | commentEndDash =>
    exact hdash (passes_singleton (by decide) rfl) (passes_singleton (by decide) rfl)
  | commentEnd =>
    simp only [heldDashes]
    rw [show "--" = "-" ++ "-" from rfl, ← String.append_assoc]
    exact hdash (passes_singleton (by decide) rfl) (passes_singleton (by decide) rfl)
  | _ => cases hin

/-- **A comment reads as it was written.** -/
theorem read_comment {content : String} (h : IsCommentText content) :
    read ⟨.commentStart, some (.comment ""), []⟩ (content ++ "-->").toList =
      ([.comment content], ⟨.data, none, []⟩) := by
  have hstart : CommentAt "" .commentStart "" := ⟨rfl, rfl, fun _ => rfl⟩
  obtain ⟨state, text, hat, hpasses⟩ := commentAt_append h content.toList hstart (by simp)
  have hdashes := hpasses.append (passes_dashes hat)
  have hclose : read ⟨.commentEnd, some (.comment content), []⟩ ['>'] =
      ([.comment content], ⟨.data, none, []⟩) :=
    read_of_complete (by decide) rfl
  have hsplit : (content ++ "-->").toList = (content.toList ++ ['-', '-']) ++ ['>'] := by simp
  rw [hsplit, read_append, hdashes, hclose]
  rfl

/-- The opening of a comment, after its bracket. -/
theorem passes_commentOpening :
    Passes ⟨.tagOpen, none, []⟩ "!--".toList ⟨.commentStart, some (.comment ""), []⟩ := by
  have hmark : Passes ⟨.tagOpen, none, []⟩ ['!'] ⟨.markupDeclaration, none, []⟩ :=
    passes_singleton (by decide) rfl
  have hdashes : Passes ⟨.markupDeclaration, none, []⟩ ['-', '-']
      ⟨.commentStart, some (.comment ""), []⟩ := by
    have hstep : step? ⟨.markupDeclaration, none, ['-', '-']⟩ =
        some (none, ⟨.commentStart, some (.comment ""), []⟩) := rfl
    rw [Passes, read, extend, List.nil_append, run_of_step hstep,
      run_of_stop (step?_of_unread_nil _ _)]
  exact hmark.append hdashes

end Lexer

end TemplateTree
