/-
What the assembly makes of the parts of markup.

The lexer is told a part at a time, and expressions come between the parts.  Between
nodes it is settled: nothing is half read but perhaps a run of text, and the stack is
what it is once that text is taken.  A tag begins and ends settled.  In between, the tag
under construction has each attribute and each expression in turn at its end, and the
state says no more than whether a part may follow.
-/
import TemplateTree.Proofs.Canonical
import TemplateTree.Proofs.Rendering

namespace TemplateTree

namespace Assembly

/-- Takes events one after another, and comes to another assembly. -/
def Takes (a : Assembly) (events : List Event) (b : Assembly) : Prop :=
  a.run (events.flatMap Event.operations) = ⟨b, none⟩

theorem takes_nil (a : Assembly) : a.Takes [] a := rfl

theorem Takes.append {a b c : Assembly} {first second : List Event} (h₁ : a.Takes first b)
    (h₂ : b.Takes second c) : a.Takes (first ++ second) c := by
  unfold Takes at h₁ h₂ ⊢
  rw [List.flatMap_append, run_append, h₁]
  exact h₂

theorem Takes.cons {a b c : Assembly} {event : Event} {rest : List Event}
    (h₁ : a.Takes [event] b) (h₂ : b.Takes rest c) : a.Takes (event :: rest) c :=
  h₁.append h₂

/-- A text that completes no token changes only the lexer. -/
theorem takes_text {a : Assembly} {content : String} {l' : Lexer}
    (h : a.lexer.Passes content.toList l') : a.Takes [.text content] ⟨l', a.stack⟩ := by
  show a.run [.feed content] = _
  rw [run_singleton, apply, feed_eq_mergeTokens, h]
  rfl

/-- A text that completes one token brings it to the stack. -/
theorem takes_token {a : Assembly} {content : String} {l' : Lexer} {token : Token}
    {stack : OpenStack} (h : a.lexer.read content.toList = ([token], l'))
    (hmerge : a.stack.mergeToken token = .ok stack) : a.Takes [.text content] ⟨l', stack⟩ := by
  show a.run [.feed content] = _
  rw [run_singleton, apply, feed_eq_mergeTokens, h]
  simp [mergeTokens, mergeToken, hmerge, Outcome.ofStack, Outcome.andThen, Outcome.withLexer]

/-! ### Between nodes -/

/-- An assembly between two nodes, whose stack is `s` once the run of text is taken. -/
inductive Settled : Assembly → OpenStack → Prop
  | flushed (s : OpenStack) : Settled ⟨⟨.data, none, []⟩, s⟩ s
  | text (s : OpenStack) (content : String) :
      Settled ⟨⟨.data, some (.text content), []⟩, s⟩ (s.push (.text content))

variable {a : Assembly} {s s' : OpenStack}

theorem flushText_of_settled (h : Settled a s) : a.flushText = ⟨⟨.data, none, []⟩, s⟩ := by
  cases h with
  | flushed => rfl
  | text => rfl

/-- A bracket ends the run of text, if there is one. -/
theorem takes_bracket (h : Settled a s) : a.Takes [.text "<"] ⟨⟨.tagOpen, none, []⟩, s⟩ := by
  cases h with
  | flushed => exact takes_text (Lexer.passes_singleton (by decide) rfl)
  | text s content => exact takes_token (Lexer.read_of_complete (by decide) rfl) rfl

end Assembly

/-- A text after a text is one with it. -/
theorem Node.push_text_text (row : List Node) (first second : String) :
    push (push row (.text first)) (.text second) = push row (.text (first ++ second)) := by
  cases row with
  | nil => rfl
  | cons node earlier => cases node <;> simp [push, String.append_assoc]

theorem OpenStack.push_text_text (s : OpenStack) (first second : String) :
    (s.push (.text first)).push (.text second) = s.push (.text (first ++ second)) := by
  unfold push
  match s.nodes with
  | [] => simp [Node.push_text_text]
  | .element tag children :: outer => simp [OpenNode.push, Node.push_text_text]
  | .block expression children none :: outer => simp [OpenNode.push, Node.push_text_text]
  | .block expression children (some inverse) :: outer =>
    simp [OpenNode.push, Node.push_text_text]

namespace Assembly

variable {a : Assembly} {s s' : OpenStack}

theorem takes_content (h : Settled a s) {content : String} (hne : content ≠ "")
    (hbracket : '<' ∉ content.toList) :
    ∃ b, a.Takes [.text content] b ∧ Settled b (s.push (.text content)) := by
  obtain ⟨hfresh, hmore⟩ := Lexer.passes_text hne hbracket
  cases h with
  | flushed => exact ⟨_, takes_text hfresh, .text _ _⟩
  | text s before =>
    rw [OpenStack.push_text_text]
    exact ⟨_, takes_text (hmore before), .text _ _⟩

theorem takes_mustache (h : Settled a s) (m : Mustache) :
    a.Takes [.mustache m] ⟨⟨.data, none, []⟩, s.push (.mustache m)⟩ := by
  show a.run [.mustache m] = _
  rw [run_singleton, apply, mergeMustache, flushText_of_settled h]
  rfl

theorem takes_opening (h : Settled a s) {e : Expression} (hopen : s.openBlock e = .ok s') :
    a.Takes [.opening e] ⟨⟨.data, none, []⟩, s'⟩ := by
  show a.run [.enterBlock e] = _
  rw [run_singleton, apply, enterBlock, flushText_of_settled h]
  simp [hopen, Outcome.ofStack]

theorem takes_otherwise (h : Settled a s) (hstart : s.startInverse = .ok s') :
    a.Takes [.otherwise] ⟨⟨.data, none, []⟩, s'⟩ := by
  show a.run [.closeProgram, .startInverse] = _
  simp [run, apply, closeProgram, flushText_of_settled h, startInverse, hstart, Outcome.ofStack,
    Outcome.andThen]

theorem takes_closing (h : Settled a s) (name : String) (hleave : s.leaveBlock = .ok s') :
    a.Takes [.closing name] ⟨⟨.data, none, []⟩, s'⟩ := by
  show a.run [.closeProgram, .leaveBlock] = _
  simp [run, apply, closeProgram, flushText_of_settled h, leaveBlock, hleave, Outcome.ofStack,
    Outcome.andThen]

/-- **A comment comes to the stack as it was written.** -/
theorem takes_comment (h : Settled a s) {content : String} (hcontent : Lexer.IsCommentText content) :
    a.Takes (commentEvents content) ⟨⟨.data, none, []⟩, s.push (.comment content)⟩ :=
  (takes_bracket h).cons ((takes_text Lexer.passes_commentOpening).cons
    (takes_token (Lexer.read_comment hcontent) rfl))

/-- An end tag closes the element that it is the end of. -/
theorem takes_endTag (h : Settled a s) {name : String} (hname : Lexer.IsTagName name)
    (hclose : s.closeElement name = .ok s') :
    a.Takes (endTagEvents name) ⟨⟨.data, none, []⟩, s'⟩ := by
  have hslash : Lexer.Passes ⟨.tagOpen, none, []⟩ "/".toList ⟨.endTagOpen, none, []⟩ :=
    Lexer.passes_singleton (by decide) rfl
  have hend : Lexer.read ⟨.tagName, some (.endTag { name }), []⟩ ">".toList =
      ([.endTag { name }], ⟨.data, none, []⟩) :=
    Lexer.read_tagEnd rfl _
  exact (takes_bracket h).cons ((takes_text hslash).cons
    ((takes_text (Lexer.passes_endTagName hname)).cons (takes_token hend hclose)))

/-! ### Inside a tag -/

/-- An assembly inside a start tag. -/
def inTag (s : OpenStack) (state : LexerState) (tag : StartTag) : Assembly :=
  ⟨⟨state, some (.startTag tag), []⟩, s⟩

end Assembly

/-- Literal text after an expression, or at the start, is a fragment of its own. -/
theorem Fragment.join_of_last (content : String) :
    ∀ value : List Fragment, (∀ f ∈ value.getLast?, f.isText = false) →
      join content value = value ++ [.text content] := by
  intro value
  induction value with
  | nil => intro _; rfl
  | cons f rest ih =>
    intro h
    cases rest with
    | nil =>
      have hf := h f (by simp)
      cases f with
      | text last => cases hf
      | mustache m => rfl
    | cons g more =>
      rw [join_cons_cons, ih (by simpa using h)]
      rfl

namespace Assembly

variable {s : OpenStack} {tag : StartTag}

/-- An expression inside a value is added to it, and begins one without quotes where none has
begun. -/
theorem mergeMustache_inTag {state : LexerState} (hstate : state.isInAttributeValue = true)
    {earlier : List Attribute} {last : Attribute} (hlast : tag.attributes = earlier ++ [last])
    (m : Mustache) :
    (inTag s state tag).mergeMustache m = ⟨inTag s (valueState state)
      { tag with attributes := earlier ++ [last.pushMustache m] }, none⟩ := by
  cases state with
  | beforeAttributeValue | attributeValueDoubleQuoted | attributeValueSingleQuoted
  | attributeValueUnquoted =>
    simp [mergeMustache, flushText, inTag, Lexer.takeText, placeMustache, addToValue,
      Tag.addMustacheToAttributeValue?, hlast, Tag.modifyLast_append, valueState]
  | _ => cases hstate

theorem takes_valueMustache {earlier : List Attribute} {last : Attribute}
    (hlast : tag.attributes = earlier ++ [last]) (m : Mustache) :
    (inTag s .attributeValueDoubleQuoted tag).Takes [.mustache m]
      (inTag s .attributeValueDoubleQuoted
        { tag with attributes := earlier ++ [last.pushMustache m] }) := by
  show Assembly.run _ [.mustache m] = _
  rw [run_singleton, apply, mergeMustache_inTag rfl hlast]
  rfl

/-- **A value has its fragments in order**, each at the end of those before it. -/
theorem takes_fragments :
    ∀ (value : List Fragment), (∀ f ∈ value, f.Canonical) →
      ∀ {tag : StartTag} {earlier : List Attribute} {last : Attribute},
        tag.attributes = earlier ++ [last] → (last.value ++ value).IsChain Fragment.Apart →
        (inTag s .attributeValueDoubleQuoted tag).Takes (value.map Fragment.event)
          (inTag s .attributeValueDoubleQuoted
            { tag with attributes := earlier ++ [{ last with value := last.value ++ value }] }) := by
  intro value
  induction value with
  | nil =>
    intro _ tag earlier last hlast _
    rw [List.append_nil, ← hlast]
    exact takes_nil _
  | cons f rest ih =>
    intro hcanonical tag earlier last hlast hapart
    have hrest := fun other hmem => hcanonical other (List.mem_cons_of_mem f hmem)
    have hfirst : (inTag s .attributeValueDoubleQuoted tag).Takes [f.event]
        (inTag s .attributeValueDoubleQuoted
          { tag with attributes := earlier ++ [{ last with value := last.value ++ [f] }] }) := by
      cases f with
      | mustache m => exact takes_valueMustache hlast m
      | text content =>
        obtain ⟨hne, hquote, -⟩ := hcanonical (.text content) (by simp)
        have hends : ∀ g ∈ last.value.getLast?, g.isText = false := by
          intro g hg
          have hboth := (List.isChain_append.mp hapart).2.2 g hg (.text content) (by simp)
          simpa [Fragment.Apart, Fragment.isText, Fragment.text?] using hboth
        have hpush : last.pushText content = { last with value := last.value ++ [.text content] } := by
          rw [Attribute.pushText, if_neg hne, Fragment.join_of_last content last.value hends]
        rw [Fragment.event, markQuotes_of_not_mem hquote, ← hpush]
        exact takes_text (Lexer.passes_valueText hlast hquote)
    have hapart' : ((last.value ++ [f]) ++ rest).IsChain Fragment.Apart := by simpa using hapart
    have hlater := @ih hrest { tag with attributes := earlier ++ [{ last with value := last.value ++ [f] }] }
      earlier { last with value := last.value ++ [f] } rfl hapart'
    simp only [List.append_assoc, List.singleton_append] at hlater
    exact hfirst.cons hlater

/-- The value of an attribute, after its name. -/
theorem takes_value {earlier : List Attribute} {a : Attribute} (h : a.Canonical)
    (hlast : tag.attributes = earlier ++ [⟨a.name, []⟩]) :
    ∃ state', Lexer.isBetweenParts state' = true ∧
      (inTag s .attributeName tag).Takes a.valueEvents
        (inTag s state' { tag with attributes := earlier ++ [a] }) := by
  unfold Attribute.valueEvents
  split
  · rename_i hempty
    have hbare : a = ⟨a.name, []⟩ := by rw [← hempty]
    refine ⟨.attributeName, rfl, ?_⟩
    rw [hbare, ← hlast]
    exact takes_nil _
  · refine ⟨.afterAttributeValueQuoted, rfl, ?_⟩
    have hopening : (inTag s .attributeName tag).Takes [.text "=\""]
        (inTag s .attributeValueDoubleQuoted tag) :=
      takes_text (Lexer.passes_valueOpening _)
    have hvalue := @takes_fragments s a.value h.value tag earlier ⟨a.name, []⟩ hlast
      (by simpa using h.apart)
    have hend : (inTag s .attributeValueDoubleQuoted { tag with attributes := earlier ++ [a] }).Takes
        [.text "\""] (inTag s .afterAttributeValueQuoted { tag with attributes := earlier ++ [a] }) :=
      takes_text (Lexer.passes_valueEnd _)
    exact hopening.cons (hvalue.append hend)

/-- **An attribute is added at the end of those before it**, wherever in the tag it
stands. -/
theorem takes_attribute {state : LexerState} (hstate : Lexer.isBetweenParts state = true)
    {a : Attribute} (h : a.Canonical) :
    ∃ state', Lexer.isBetweenParts state' = true ∧
      (inTag s state tag).Takes a.events
        (inTag s state' { tag with attributes := tag.attributes ++ [a] }) := by
  have hblank : (inTag s state tag).Takes [.text " "] (inTag s .beforeAttributeName tag) :=
    takes_text (Lexer.passes_blank hstate _)
  have hname : (inTag s .beforeAttributeName tag).Takes [.text a.name]
      (inTag s .attributeName { tag with attributes := tag.attributes ++ [⟨a.name, []⟩] }) :=
    takes_text (Lexer.passes_attributeName tag h.isAttributeName)
  obtain ⟨state', hstate', hvalue⟩ := @takes_value s
    { tag with attributes := tag.attributes ++ [⟨a.name, []⟩] } tag.attributes a h rfl
  exact ⟨state', hstate', hblank.cons (hname.cons hvalue)⟩

theorem takes_attributes :
    ∀ (attributes : List Attribute), (∀ a ∈ attributes, a.Canonical) →
      ∀ {tag : StartTag} {state : LexerState}, Lexer.isBetweenParts state = true →
        ∃ state', Lexer.isBetweenParts state' = true ∧
          (inTag s state tag).Takes (attributes.flatMap Attribute.events)
            (inTag s state' { tag with attributes := tag.attributes ++ attributes }) := by
  intro attributes
  induction attributes with
  | nil =>
    intro _ tag state hstate
    refine ⟨state, hstate, ?_⟩
    rw [List.append_nil]
    exact takes_nil _
  | cons a rest ih =>
    intro h tag state hstate
    obtain ⟨state₁, hstate₁, hfirst⟩ := @takes_attribute s tag state hstate a (h a (by simp))
    obtain ⟨state₂, hstate₂, hrest⟩ := @ih (fun other hmem => h other (by simp [hmem]))
      { tag with attributes := tag.attributes ++ [a] } state₁ hstate₁
    refine ⟨state₂, hstate₂, ?_⟩
    simp only [List.append_assoc, List.singleton_append] at hrest
    exact hfirst.append hrest

/-- The expressions after the attributes apply to the tag, in their order. -/
theorem takes_modifiers :
    ∀ (modifiers : List Mustache) {tag : StartTag} {state : LexerState},
      Lexer.isBetweenParts state = true →
        ∃ state', Lexer.isBetweenParts state' = true ∧
          (inTag s state tag).Takes (modifiers.flatMap fun m => [.text " ", .mustache m])
            (inTag s state' { tag with modifiers := tag.modifiers ++ modifiers }) := by
  intro modifiers
  induction modifiers with
  | nil =>
    intro tag state hstate
    refine ⟨state, hstate, ?_⟩
    rw [List.append_nil]
    exact takes_nil _
  | cons m rest ih =>
    intro tag state hstate
    have hblank : (inTag s state tag).Takes [.text " "] (inTag s .beforeAttributeName tag) :=
      takes_text (Lexer.passes_blank hstate _)
    have hmodifier : (inTag s .beforeAttributeName tag).Takes [.mustache m]
        (inTag s .beforeAttributeName { tag with modifiers := tag.modifiers ++ [m] }) := rfl
    obtain ⟨state', hstate', hrest⟩ := @ih { tag with modifiers := tag.modifiers ++ [m] }
      .beforeAttributeName rfl
    refine ⟨state', hstate', ?_⟩
    simp only [List.append_assoc, List.singleton_append] at hrest
    exact hblank.cons (hmodifier.cons hrest)

/-- **A start tag comes to the stack as it was written.** -/
theorem takes_startTag {a : Assembly} {s' : OpenStack} (hs : Settled a s) {t : StartTag}
    (h : t.Canonical) (hmerge : s.openElement t = .ok s') :
    a.Takes t.events ⟨⟨.data, none, []⟩, s'⟩ := by
  have hname : Assembly.Takes ⟨⟨.tagOpen, none, []⟩, s⟩ [.text t.name]
      (inTag s .tagName { name := t.name }) :=
    takes_text (Lexer.passes_startTagName h.name)
  obtain ⟨state₁, hstate₁, hattributes⟩ := @takes_attributes s t.attributes h.attributes
    { name := t.name } .tagName rfl
  obtain ⟨state₂, hstate₂, hmodifiers⟩ := @takes_modifiers s t.modifiers
    { name := t.name, attributes := [] ++ t.attributes } state₁ hstate₁
  refine (takes_bracket hs).cons (hname.cons (hattributes.append (hmodifiers.append ?_)))
  obtain ⟨⟨name, attributes⟩, selfClosing, modifiers⟩ := t
  simp only [List.nil_append]
  cases selfClosing with
  | true =>
    have hend := Lexer.read_selfClosingEnd hstate₂ { name, attributes, modifiers }
    exact @takes_token (inTag s state₂ { name, attributes, modifiers }) "/>" _ _ _ hend hmerge
  | false =>
    have hend := Lexer.read_tagEnd hstate₂ (.startTag { name, attributes, modifiers })
    exact @takes_token (inTag s state₂ { name, attributes, modifiers }) ">" _ _ _ hend hmerge

end Assembly

end TemplateTree
