/-
Canonical trees, and trees laid out in a line.

Many trees are written as one source, and reading it back gives at most one of them.
`Canonical` says of a tree that it may be that one: its texts and names could have been
read as such, texts that would have been joined are joined, nothing in it would be taken
for markup or for a directive, and all its expressions are plain.

A tree is written out as a row of events, texts for its markup and directives for the
rest, one event for each part that the lexer reads in a state of its own.  The standard
style spells exactly this row.  In a canonical tree all of it is legible, and its blocks
are well nested.
-/
import TemplateTree.Markup
import TemplateTree.Proofs.Plain
import TemplateTree.Proofs.Scanning

namespace TemplateTree

/-! ### Canonical trees -/

/-- Is this literal text? -/
def Fragment.isText (f : Fragment) : Bool :=
  f.text?.isSome

/-- A fragment of a canonical value. -/
def Fragment.Canonical : Fragment → Prop
  | .text content => content ≠ "" ∧ '\"' ∉ content.toList ∧ '\x7b' ∉ content.toList
  | .mustache m => m.Plain

/-- Neighbours that are not both literal text. -/
def Fragment.Apart (first second : Fragment) : Prop :=
  ¬ (first.isText = true ∧ second.isText = true)

/-- An attribute that reads as it is written in double quotes. -/
structure Attribute.Canonical (a : Attribute) : Prop where
  name_ne : a.name ≠ ""
  name : ∀ c ∈ a.name.toList, (isNameChar c = true ∧ c ≠ '=') ∧ c ≠ '\x7b'
  value : ∀ f ∈ a.value, f.Canonical
  apart : a.value.IsChain Fragment.Apart

theorem Attribute.Canonical.isAttributeName {a : Attribute} (h : a.Canonical) :
    Lexer.IsAttributeName a.name := by
  obtain ⟨first, rest, hname⟩ :=
    List.exists_cons_of_ne_nil (show a.name.toList ≠ [] by simpa using h.name_ne)
  have hchars : ∀ c ∈ first :: rest, isNameChar c = true ∧ c ≠ '=' := fun c hc =>
    (h.name c (hname ▸ hc)).1
  exact ⟨first, rest, hname, (hchars first (by simp)).1, fun c hc => hchars c (by simp [hc])⟩

/-- A start tag that reads as it is written. -/
structure StartTag.Canonical (t : StartTag) : Prop where
  name : Lexer.IsTagName t.name
  name_brace : '\x7b' ∉ t.name.toList
  attributes : ∀ a ∈ t.attributes, a.Canonical
  modifiers : ∀ m ∈ t.modifiers, m.Plain

namespace Node

/-- Neighbours that are not both texts. -/
def Apart (first second : Node) : Prop :=
  ¬ (first.isText = true ∧ second.isText = true)

mutual

/-- A node that reads as it is written. -/
def Canonical : Node → Prop
  | .element tag children =>
    (tag.Canonical ∧ (tag.selfClosing = true → children = [])) ∧
      (AllCanonical children ∧ children.IsChain Apart)
  | .block expression children inverse =>
    expression.Plain false ∧ (AllCanonical children ∧ children.IsChain Apart) ∧
      InverseCanonical inverse
  | .text content => content ≠ "" ∧ '<' ∉ content.toList ∧ '\x7b' ∉ content.toList
  | .comment content => Lexer.IsCommentText content ∧ '\x7b' ∉ content.toList
  | .mustache m => m.Plain

/-- Nodes each of which reads as it is written. -/
def AllCanonical : List Node → Prop
  | [] => True
  | node :: rest => Canonical node ∧ AllCanonical rest

/-- The same for the row for the other case, if there is one. -/
def InverseCanonical : Option (List Node) → Prop
  | none => True
  | some nodes => AllCanonical nodes ∧ nodes.IsChain Apart

end

/-- A row of nodes that reads as it is written: no two texts in it are side by side. -/
def CanonicalRow (nodes : List Node) : Prop :=
  AllCanonical nodes ∧ nodes.IsChain Apart

mutual

/-- How deep a node nests: blocks count, and elements that have an end tag if they are to
be counted. -/
def nesting (elements : Bool) : Node → Nat
  | .element tag children =>
    nestingOf elements children + if elements && !tag.selfClosing then 1 else 0
  | .block _ children inverse =>
    max (nestingOf elements children) (nestingOfInverse elements inverse) + 1
  | .text _ | .comment _ | .mustache _ => 0

/-- How deep a row of nodes nests. -/
def nestingOf (elements : Bool) : List Node → Nat
  | [] => 0
  | node :: rest => max (nesting elements node) (nestingOf elements rest)

/-- How deep the row for the other case nests, if there is one. -/
def nestingOfInverse (elements : Bool) : Option (List Node) → Nat
  | none => 0
  | some nodes => nestingOf elements nodes

end

end Node

/-! ### Trees as events -/

/-- A fragment inside double quotes, as an event. -/
def Fragment.event : Fragment → Event
  | .text content => .text (markQuotes content)
  | .mustache m => .mustache m

/-- The value of an attribute, after its name. -/
def Attribute.valueEvents (a : Attribute) : List Event :=
  if a.value = [] then []
  else .text "=\"" :: (a.value.map Fragment.event ++ [.text "\""])

/-- An attribute, with the blank before it. -/
def Attribute.events (a : Attribute) : List Event :=
  .text " " :: .text a.name :: a.valueEvents

/-- A start tag. -/
def StartTag.events (t : StartTag) : List Event :=
  .text "<" :: .text t.name ::
    (t.attributes.flatMap Attribute.events ++
      (t.modifiers.flatMap (fun m => [.text " ", .mustache m]) ++
        [.text (if t.selfClosing then "/>" else ">")]))

/-- The end tag with a name. -/
def endTagEvents (name : String) : List Event :=
  [.text "<", .text "/", .text name, .text ">"]

/-- A comment. -/
def commentEvents (content : String) : List Event :=
  [.text "<", .text "!--", .text (content ++ "-->")]

namespace Node

mutual

/-- A node from left to right. -/
def events : Node → List Event
  | .element tag children =>
    if tag.selfClosing then tag.events
    else tag.events ++ (eventsOf children ++ endTagEvents tag.name)
  | .block expression children inverse =>
    .opening expression :: (eventsOf children ++ (inverseEvents inverse ++ [.closing expression.path]))
  | .text content => [.text content]
  | .comment content => commentEvents content
  | .mustache m => [.mustache m]

/-- A row of nodes from left to right. -/
def eventsOf : List Node → List Event
  | [] => []
  | node :: rest => events node ++ eventsOf rest

/-- The row for the other case, if there is one, after the step to it. -/
def inverseEvents : Option (List Node) → List Event
  | none => []
  | some nodes => .otherwise :: eventsOf nodes

end

end Node

/-! ### The standard style -/

namespace Event

@[simp] theorem spelled_nil : spelled [] = "" := rfl

@[simp] theorem spelled_cons (event : Event) (rest : List Event) :
    spelled (event :: rest) = event.spelling ++ spelled rest := by
  simp [spelled]

@[simp] theorem spelled_append (first second : List Event) :
    spelled (first ++ second) = spelled first ++ spelled second := by
  simp [spelled]

/-- What each part of a row is spelled as, the row is spelled as. -/
theorem spelled_flatMap {α : Type} (parts : List α) (events : α → List Event) :
    spelled (parts.flatMap events) = String.join (parts.map fun part => spelled (events part)) := by
  induction parts with
  | nil => rfl
  | cons part rest ih => simp [ih]

end Event

theorem Fragment.spelling_event (f : Fragment) :
    f.event.spelling = MarkupStyle.fragmentText f := by
  cases f <;> rfl

theorem Attribute.spelled_events (a : Attribute) :
    Event.spelled a.events = " " ++ MarkupStyle.attributeText a := by
  have hvalue : Event.spelled (a.value.map Fragment.event) =
      String.join (a.value.map MarkupStyle.fragmentText) := by
    simp [Event.spelled, Function.comp_def, Fragment.spelling_event]
  unfold events valueEvents MarkupStyle.attributeText
  split
  · simp [Event.spelling]
  · simp [Event.spelling, hvalue, String.append_assoc]

/-- Attributes with blanks between them, and one before the first. -/
theorem attributesText_eq (attributes : List Attribute) :
    (if attributes = [] then ""
      else " " ++ MarkupStyle.attributesText MarkupStyle.attributeText attributes) =
      String.join (attributes.map fun a => " " ++ MarkupStyle.attributeText a) := by
  unfold MarkupStyle.attributesText
  induction attributes with
  | nil => rfl
  | cons a rest ih =>
    cases rest with
    | nil => simp
    | cons b more =>
      simp only [reduceCtorEq, if_false, List.map_cons, String.intercalate_cons_cons,
        String.join_cons] at ih ⊢
      rw [← ih]
      simp [String.append_assoc]

/-- **A start tag in the standard style is its events.** -/
theorem StartTag.spelled_events (t : StartTag) :
    Event.spelled t.events = MarkupStyle.standard.startTag t := by
  have hmodifiers : Event.spelled (t.modifiers.flatMap fun m => [.text " ", .mustache m]) =
      String.join (t.modifiers.map (" " ++ ·.text)) := by
    simp [Event.spelled_flatMap, Event.spelling]
  have hattributes : Event.spelled (t.attributes.flatMap Attribute.events) =
      String.join (t.attributes.map fun a => " " ++ MarkupStyle.attributeText a) := by
    simp [Event.spelled_flatMap, Attribute.spelled_events]
  simp only [MarkupStyle.startTag, MarkupStyle.standard, MarkupStyle.tagText, attributesText_eq]
  simp [events, Event.spelling, hmodifiers, hattributes, String.append_assoc]

theorem spelled_endTagEvents (name : String) :
    Event.spelled (endTagEvents name) = endTagText name := by
  apply String.toList_inj.mp
  simp [endTagEvents, endTagText, Event.spelling]

theorem spelled_commentEvents (content : String) :
    Event.spelled (commentEvents content) = commentText content := by
  apply String.toList_inj.mp
  simp [commentEvents, commentText, Event.spelling]

namespace Node

mutual

/-- **A node in the standard style is its events.** -/
theorem spelled_events (node : Node) : Event.spelled node.events = node.markup .standard := by
  cases node with
  | element tag children =>
    rw [events, markup]
    split
    · exact tag.spelled_events
    · simp [tag.spelled_events, spelled_eventsOf children, spelled_endTagEvents,
        String.append_assoc]
  | block expression children inverse =>
    rw [events, markup]
    simp [spelled_eventsOf children, spelled_inverseEvents inverse, Event.spelling,
      String.append_assoc]
  | text content => simp [events, markup, Event.spelling]
  | comment content => exact spelled_commentEvents content
  | mustache m => simp [events, markup, Event.spelling]

theorem spelled_eventsOf (nodes : List Node) :
    Event.spelled (eventsOf nodes) = markupOfRow .standard nodes := by
  cases nodes with
  | nil => rfl
  | cons node rest => simp [eventsOf, markupOfRow, spelled_events node, spelled_eventsOf rest]

theorem spelled_inverseEvents (inverse : Option (List Node)) :
    Event.spelled (inverseEvents inverse) = markupOfInverse .standard inverse := by
  cases inverse with
  | none => rfl
  | some nodes => simp [inverseEvents, markupOfInverse, spelled_eventsOf nodes, Event.spelling]

end

end Node

/-! ### What is legible -/

namespace Event

/-- Events all of which are legible. -/
def AllLegible (events : List Event) : Prop :=
  ∀ event ∈ events, event.Legible

theorem allLegible_append {first second : List Event} (h₁ : AllLegible first)
    (h₂ : AllLegible second) : AllLegible (first ++ second) := by
  intro event hmem
  rcases List.mem_append.mp hmem with hfirst | hsecond
  · exact h₁ event hfirst
  · exact h₂ event hsecond

theorem allLegible_cons {event : Event} {rest : List Event} (h₁ : event.Legible)
    (h₂ : AllLegible rest) : AllLegible (event :: rest) := by
  intro event' hmem
  rcases List.mem_cons.mp hmem with rfl | hrest
  · exact h₁
  · exact h₂ event' hrest

theorem allLegible_nil : AllLegible [] := by
  intro event hmem
  cases hmem

theorem allLegible_flatMap {α : Type} {parts : List α} {events : α → List Event}
    (h : ∀ part ∈ parts, AllLegible (events part)) : AllLegible (parts.flatMap events) := by
  intro event hmem
  obtain ⟨part, hpart, hevent⟩ := List.mem_flatMap.mp hmem
  exact h part hpart event hevent

end Event

theorem markQuotes_of_not_mem {content : String} (h : '\"' ∉ content.toList) :
    markQuotes content = content := by
  apply String.toList_inj.mp
  rw [toList_markQuotes, marked_of_not_mem _ h]

theorem Fragment.legible_event {f : Fragment} (h : f.Canonical) : f.event.Legible := by
  cases f with
  | text content =>
    obtain ⟨hne, hquote, hbrace⟩ := h
    rw [event, markQuotes_of_not_mem hquote]
    exact .text hne hbrace
  | mustache m => exact Event.legible_mustache h

theorem Attribute.legible_events {a : Attribute} (h : a.Canonical) : Event.AllLegible a.events := by
  have hblank : (Event.text " ").Legible := .text (by decide) (by decide)
  have hname : (Event.text a.name).Legible :=
    .text h.name_ne fun hbrace => (h.name _ hbrace).2 rfl
  refine Event.allLegible_cons hblank (Event.allLegible_cons hname ?_)
  unfold valueEvents
  split
  · exact Event.allLegible_nil
  · refine Event.allLegible_cons (.text (by decide) (by decide)) (Event.allLegible_append ?_ ?_)
    · intro event hmem
      obtain ⟨f, hf, rfl⟩ := List.mem_map.mp hmem
      exact f.legible_event (h.value f hf)
    · exact Event.allLegible_cons (.text (by decide) (by decide)) Event.allLegible_nil

theorem Lexer.IsTagName.ne_empty {name : String} (h : IsTagName name) : name ≠ "" := by
  obtain ⟨first, rest, hname, -⟩ := h
  rintro rfl
  cases hname

theorem StartTag.legible_events {t : StartTag} (h : t.Canonical) : Event.AllLegible t.events := by
  have hopen : (Event.text "<").Legible := .text (by decide) (by decide)
  have hname : (Event.text t.name).Legible := .text h.name.ne_empty h.name_brace
  have hblank : (Event.text " ").Legible := .text (by decide) (by decide)
  refine Event.allLegible_cons hopen (Event.allLegible_cons hname (Event.allLegible_append ?_
    (Event.allLegible_append ?_ ?_)))
  · exact Event.allLegible_flatMap fun a ha => a.legible_events (h.attributes a ha)
  · refine Event.allLegible_flatMap fun m hm => ?_
    exact Event.allLegible_cons hblank
      (Event.allLegible_cons (Event.legible_mustache (h.modifiers m hm)) Event.allLegible_nil)
  · refine Event.allLegible_cons ?_ Event.allLegible_nil
    split <;> exact .text (by decide) (by decide)

theorem legible_endTagEvents {name : String} (hne : name ≠ "") (hbrace : '\x7b' ∉ name.toList) :
    Event.AllLegible (endTagEvents name) :=
  Event.allLegible_cons (.text (by decide) (by decide))
    (Event.allLegible_cons (.text (by decide) (by decide))
      (Event.allLegible_cons (.text hne hbrace)
        (Event.allLegible_cons (.text (by decide) (by decide)) Event.allLegible_nil)))

theorem legible_commentEvents {content : String} (hbrace : '\x7b' ∉ content.toList) :
    Event.AllLegible (commentEvents content) := by
  have hend : (Event.text (content ++ "-->")).Legible := by
    refine .text ?_ (by simp [hbrace])
    intro hempty
    exact absurd (String.append_eq_empty_iff.mp hempty).2 (by decide)
  exact Event.allLegible_cons (.text (by decide) (by decide))
    (Event.allLegible_cons (.text (by decide) (by decide))
      (Event.allLegible_cons hend Event.allLegible_nil))

namespace Node

mutual

/-- **All of a canonical node is legible.** -/
theorem legible_events {node : Node} (h : node.Canonical) : Event.AllLegible node.events := by
  match node, h with
  | .element tag children, h =>
    obtain ⟨⟨htag, -⟩, hchildren, -⟩ := h
    rw [events]
    split
    · exact tag.legible_events htag
    · exact Event.allLegible_append (tag.legible_events htag)
        (Event.allLegible_append (legible_eventsOf hchildren)
          (legible_endTagEvents htag.name.ne_empty htag.name_brace))
  | .block expression children inverse, h =>
    obtain ⟨hexpression, ⟨hchildren, -⟩, hinverse⟩ := h
    refine Event.allLegible_cons (Event.legible_opening hexpression)
      (Event.allLegible_append (legible_eventsOf hchildren)
        (Event.allLegible_append (legible_inverseEvents hinverse) ?_))
    exact Event.allLegible_cons (Event.legible_closing hexpression.path) Event.allLegible_nil
  | .text content, h => exact Event.allLegible_cons (.text h.1 h.2.2) Event.allLegible_nil
  | .comment content, h => exact legible_commentEvents h.2
  | .mustache m, h => exact Event.allLegible_cons (Event.legible_mustache h) Event.allLegible_nil

theorem legible_eventsOf {nodes : List Node} (h : AllCanonical nodes) :
    Event.AllLegible (eventsOf nodes) := by
  match nodes, h with
  | [], _ => exact Event.allLegible_nil
  | node :: rest, h =>
    exact Event.allLegible_append (legible_events h.1) (legible_eventsOf h.2)

theorem legible_inverseEvents {inverse : Option (List Node)} (h : InverseCanonical inverse) :
    Event.AllLegible (inverseEvents inverse) := by
  match inverse, h with
  | none, _ => exact Event.allLegible_nil
  | some nodes, h => exact Event.allLegible_cons Event.legible_otherwise (legible_eventsOf h.1)

end

end Node

/-! ### Blocks of a tree -/

namespace Shape

/-- Events that leave the open blocks as they were. -/
def Kept (limit : Nat) (shape : Shape) (events : List Event) : Prop :=
  events.foldlM (take limit) shape = some shape

variable {limit : Nat} {shape : Shape}

theorem kept_append {first second : List Event} (h₁ : Kept limit shape first)
    (h₂ : Kept limit shape second) : Kept limit shape (first ++ second) := by
  unfold Kept at h₁ h₂ ⊢
  rw [List.foldlM_append, h₁]
  exact h₂

/-- Texts and expressions in place open nothing and close nothing. -/
theorem kept_of_flat :
    ∀ events : List Event, (∀ event ∈ events, take limit shape event = some shape) →
      Kept limit shape events := by
  intro events
  induction events with
  | nil => intro _; rfl
  | cons event rest ih =>
    intro h
    unfold Kept at ih ⊢
    rw [List.foldlM_cons, h event (by simp)]
    exact ih fun other hmem => h other (by simp [hmem])

/-- A block with what is kept in both of its parts. -/
theorem kept_block {expression : Expression} {body inverse : List Event}
    (hroom : shape.length < limit)
    (hbody : Kept limit ((expression.path, false) :: shape) body)
    (hinverse : inverse = [] ∨ ∃ events, inverse = .otherwise :: events ∧
      Kept limit ((expression.path, true) :: shape) events) :
    Kept limit shape
      (.opening expression :: (body ++ (inverse ++ [.closing expression.path]))) := by
  have hopen : take limit shape (.opening expression) = some ((expression.path, false) :: shape) :=
    if_neg (by omega)
  unfold Kept at hbody ⊢
  rw [List.foldlM_cons, hopen]
  simp only [Option.bind_eq_bind, Option.bind_some, List.foldlM_append, hbody]
  rcases hinverse with rfl | ⟨events, rfl, hevents⟩
  · simp [take]
  · unfold Kept at hevents
    simp [take, hevents]

end Shape

/-- Nothing in a tag opens or closes a block. -/
theorem Attribute.take_events (limit : Nat) (shape : Shape) (a : Attribute) :
    ∀ event ∈ a.events, Shape.take limit shape event = some shape := by
  intro event hmem
  rcases List.mem_cons.mp hmem with rfl | hmem
  · rfl
  rcases List.mem_cons.mp hmem with rfl | hmem
  · rfl
  unfold valueEvents at hmem
  split at hmem
  · cases hmem
  · rcases List.mem_cons.mp hmem with rfl | hmem
    · rfl
    rcases List.mem_append.mp hmem with hvalue | hend
    · obtain ⟨f, -, rfl⟩ := List.mem_map.mp hvalue
      cases f <;> rfl
    · rw [List.mem_singleton.mp hend]
      rfl

theorem StartTag.kept_events (limit : Nat) (shape : Shape) (t : StartTag) :
    Shape.Kept limit shape t.events := by
  refine @Shape.kept_append _ _ [.text "<", .text t.name] _ rfl ?_
  refine Shape.kept_append (Shape.kept_of_flat _ ?_) (Shape.kept_append (Shape.kept_of_flat _ ?_) rfl)
  · intro event hmem
    obtain ⟨a, -, hevent⟩ := List.mem_flatMap.mp hmem
    exact a.take_events limit shape event hevent
  · intro event hmem
    obtain ⟨m, -, hevent⟩ := List.mem_flatMap.mp hmem
    simp only [List.mem_cons, List.not_mem_nil, or_false] at hevent
    rcases hevent with rfl | rfl
    · rfl
    · rfl

namespace Node

mutual

/-- **A node closes the blocks that it opens**, if there is room for them. -/
theorem kept_events {limit : Nat} (node : Node) {shape : Shape}
    (hroom : shape.length + node.nesting false ≤ limit) : Shape.Kept limit shape node.events := by
  cases node with
  | element tag children =>
    have hchildren : Shape.Kept limit shape (eventsOf children) :=
      kept_eventsOf children (by simp only [nesting] at hroom; omega)
    rw [events]
    split
    · exact tag.kept_events limit shape
    · refine Shape.kept_append (tag.kept_events limit shape) (Shape.kept_append hchildren ?_)
      rfl
  | block expression children inverse =>
    simp only [nesting] at hroom
    refine Shape.kept_block (by omega) (kept_eventsOf children ?_) ?_
    · simp only [List.length_cons]
      omega
    · cases inverse with
      | none => exact Or.inl rfl
      | some nodes =>
        refine Or.inr ⟨_, rfl, kept_eventsOf nodes ?_⟩
        simp only [nestingOfInverse] at hroom
        simp only [List.length_cons]
        omega
  | text content => rfl
  | comment content => rfl
  | mustache m => rfl

theorem kept_eventsOf {limit : Nat} (nodes : List Node) {shape : Shape}
    (hroom : shape.length + nestingOf false nodes ≤ limit) :
    Shape.Kept limit shape (eventsOf nodes) := by
  cases nodes with
  | nil => rfl
  | cons node rest =>
    simp only [nestingOf] at hroom
    exact Shape.kept_append (kept_events node (by omega)) (kept_eventsOf rest (by omega))

end

end Node

end TemplateTree
