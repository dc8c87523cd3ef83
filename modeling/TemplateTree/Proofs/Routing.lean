/-
Where an expression goes.

An expression may arrive while the lexer is anywhere in a tag, in a comment or between
nodes.  The state of the lexer alone decides what becomes of it, and whoever wrote the
template relies on that: `Receives` lists the five cases, and in each of them exactly one
thing is changed, the row that is being filled or the token under construction.

The operation itself asks for more than the state.  It looks for a start tag, for its last
attribute or for a comment in the lexer's hands, and refuses the expression where there is
none.  In a lexer that came about by reading there always is one, because the state says
which token is in hand; the one exception is an end tag, which has no place for an
expression.  So the refusals are known: where markup has begun and it is open which, and in
an end tag.
-/
import TemplateTree.Proofs.Failure
import TemplateTree.Proofs.InHand
import TemplateTree.Proofs.Texts

namespace TemplateTree

namespace LexerState

/-- Markup has begun, and it is open which. -/
def isOpening : LexerState → Bool
  | tagOpen | endTagOpen | markupDeclaration => true
  | _ => false

/-- Inside a tag and outside of values, where an expression applies to the whole tag. -/
def isBesideValues : LexerState → Bool
  | tagName | beforeAttributeName | attributeName | afterAttributeValueQuoted
  | selfClosingStartTag => true
  | _ => false

end LexerState

/-! ### The row that is being filled -/

namespace OpenNode

/-- The node with another row in the place of the one that is being filled. -/
def withRow (row : List Node) : OpenNode → OpenNode
  | element tag _ => element tag row
  | block expression _ none => block expression row none
  | block expression children (some _) => block expression children (some row)

theorem push_eq_withRow (node : OpenNode) (child : Node) :
    node.push child = node.withRow (Node.push node.row child) := by
  match node with
  | element .. | block _ _ none | block _ _ (some _) => rfl

theorem withRow_withRow (node : OpenNode) (first second : List Node) :
    (node.withRow first).withRow second = node.withRow second := by
  match node with
  | element .. | block _ _ none | block _ _ (some _) => rfl

end OpenNode

namespace OpenStack

/-- The stack with another row in the place of the one that is being filled. -/
def withRow (s : OpenStack) (row : List Node) : OpenStack :=
  match s.nodes with
  | [] => { s with root := row }
  | top :: outer => { s with nodes := top.withRow row :: outer }

/-- **To add a node is to change the row that is being filled**, and nothing else. -/
theorem push_eq_withRow (s : OpenStack) (node : Node) :
    s.push node = s.withRow (Node.push s.row node) := by
  obtain ⟨maxDepth, root, nodes⟩ := s
  match nodes with
  | [] => rfl
  | top :: outer => simp only [push, withRow, row, OpenNode.push_eq_withRow]

theorem withRow_withRow (s : OpenStack) (first second : List Node) :
    (s.withRow first).withRow second = s.withRow second := by
  obtain ⟨maxDepth, root, nodes⟩ := s
  match nodes with
  | [] => rfl
  | top :: outer => simp only [withRow, OpenNode.withRow_withRow]

end OpenStack

namespace Assembly

/-! ### The places -/

/-- The assembly with an expression in the one place that the lexer's state says.  All that is
not written here is as it was. -/
inductive Receives (a : Assembly) (m : Mustache) : Assembly → Prop
  /-- Between nodes it is the last child of the innermost open node. -/
  | node (hstate : a.lexer.state = .data) (hpending : a.lexer.pending = none) :
    Receives a m { a with stack := a.stack.withRow (.mustache m :: a.stack.row) }
  /-- A text in hand comes before it. -/
  | nodeAfterText {content : String} (hstate : a.lexer.state = .data)
      (hpending : a.lexer.pending = some (.text content)) :
    Receives a m
      { lexer := { a.lexer with pending := none }
        stack := a.stack.withRow (.mustache m :: Node.push a.stack.row (.text content)) }
  /-- In a tag and outside of values it applies to the tag, after those that did before. -/
  | modifier {tag : StartTag} (hstate : a.lexer.state.isBesideValues = true)
      (hpending : a.lexer.pending = some (.startTag tag)) :
    Receives a m { a with lexer := { a.lexer with
      pending := some (.startTag { tag with modifiers := tag.modifiers ++ [m] }) } }
  /-- In a value it is the last fragment.  Right after the equals sign it begins the value, which
  then is one without quotes. -/
  | value {tag : StartTag} {earlier : List Attribute} {last : Attribute}
      (hstate : a.lexer.state.isInAttributeValue = true)
      (hpending : a.lexer.pending = some (.startTag tag))
      (hlast : tag.attributes = earlier ++ [last]) :
    Receives a m { a with lexer := { a.lexer with
      state := if a.lexer.state = .beforeAttributeValue then .attributeValueUnquoted
        else a.lexer.state
      pending := some (.startTag { tag with
        attributes := earlier ++ [{ last with value := last.value ++ [.mustache m] }] }) } }
  /-- In a comment its written form is text, after the dashes that were held back. -/
  | comment {content : String} (hstate : a.lexer.state.isInComment = true)
      (hpending : a.lexer.pending = some (.comment content)) :
    Receives a m { a with lexer := { a.lexer with
      state := .comment
      pending := some (.comment (content ++ Lexer.heldDashes a.lexer.state ++ m.text)) } }

/-- No expression may stand here. -/
def Refuses (a : Assembly) : Prop :=
  a.lexer.state.isOpening = true ∨ ∃ tag, a.lexer.pending = some (.endTag tag)

variable {a b : Assembly} {m : Mustache}

/-! ### Group by group -/

/-- Between nodes, with a text in hand or without. -/
theorem receives_of_data (hfits : a.lexer.Fits []) (hstate : a.lexer.state = .data) :
    ∃ b, a.mergeMustache m = ⟨b, none⟩ ∧ a.Receives m b := by
  obtain ⟨⟨state, pending, unread⟩, stack⟩ := a
  simp only at hstate
  subst hstate
  have hrow : ∀ row : List Node, Node.push row (.mustache m) = .mustache m :: row :=
    fun row => Node.push_of_not_isText row rfl
  match pending, hfits.inHand.text rfl with
  | none, _ =>
    have hpush : stack.push (.mustache m) = stack.withRow (.mustache m :: stack.row) := by
      rw [OpenStack.push_eq_withRow, hrow]
    refine ⟨⟨⟨.data, none, unread⟩, stack.push (.mustache m)⟩, rfl, ?_⟩
    rw [hpush]
    exact .node rfl rfl
  | some token, htext =>
    obtain ⟨content, rfl, -⟩ := htext token rfl
    have hpush : (stack.push (.text content)).push (.mustache m) =
        stack.withRow (.mustache m :: Node.push stack.row (.text content)) := by
      rw [OpenStack.push_eq_withRow, OpenStack.row_push, hrow, OpenStack.push_eq_withRow stack,
        OpenStack.withRow_withRow]
    refine ⟨⟨⟨.data, none, unread⟩, (stack.push (.text content)).push (.mustache m)⟩, rfl, ?_⟩
    rw [hpush]
    exact .nodeAfterText rfl rfl

/-- Outside of text, an expression has its place or there is none. -/
theorem mergeMustache_of_state (hstate : a.lexer.state ≠ .data) :
    a.mergeMustache m = match a.placeMustache m with
      | some placed => ⟨placed, none⟩
      | none => ⟨a, some (.misplacedDirective m.text a.lexer.state)⟩ := by
  cases hplace : a.placeMustache m <;> simp [mergeMustache, flushText_of_state hstate, hplace]

/-- In a start tag, beside its values. -/
theorem receives_of_isBesideValues (hstate : a.lexer.state.isBesideValues = true) {tag : StartTag}
    (hpending : a.lexer.pending = some (.startTag tag)) :
    ∃ b, a.mergeMustache m = ⟨b, none⟩ ∧ a.Receives m b := by
  refine ⟨_, ?_, .modifier hstate hpending⟩
  have hadd : a.addModifier m = some { a with lexer := { a.lexer with
      pending := some (.startTag { tag with modifiers := tag.modifiers ++ [m] }) } } := by
    simp only [addModifier, hpending, StartTag.addModifier]
  have hplace : a.placeMustache m = a.addModifier m := by
    unfold placeMustache
    revert hstate
    cases a.lexer.state <;> simp [LexerState.isBesideValues]
  rw [mergeMustache_of_state fun hdata => by simp [hdata, LexerState.isBesideValues] at hstate,
    hplace, hadd]

/-- In a value of a start tag. -/
theorem receives_of_isInAttributeValue (hstate : a.lexer.state.isInAttributeValue = true)
    {tag : StartTag} (hpending : a.lexer.pending = some (.startTag tag))
    (hattributes : tag.attributes ≠ []) :
    ∃ b, a.mergeMustache m = ⟨b, none⟩ ∧ a.Receives m b := by
  obtain ⟨earlier, last, hlast⟩ := (List.eq_nil_or_concat' tag.attributes).resolve_left hattributes
  refine ⟨_, ?_, .value hstate hpending hlast⟩
  have hadd : a.addToValue m = some { a with lexer := { a.lexer with
      state := if a.lexer.state = .beforeAttributeValue then .attributeValueUnquoted
        else a.lexer.state
      pending := some (.startTag { tag with
        attributes := earlier ++ [{ last with value := last.value ++ [.mustache m] }] }) } } := by
    simp only [addToValue, hpending, Tag.addMustacheToAttributeValue?, if_neg hattributes,
      Option.map_some, valueState]
    rw [hlast, Tag.modifyLast_append, Attribute.pushMustache]
  have hplace : a.placeMustache m = a.addToValue m := by
    unfold placeMustache
    revert hstate
    cases a.lexer.state <;> simp [LexerState.isInAttributeValue]
  rw [mergeMustache_of_state fun hdata => by simp [hdata, LexerState.isInAttributeValue] at hstate,
    hplace, hadd]

/-- In a comment. -/
theorem receives_of_isInComment (hstate : a.lexer.state.isInComment = true) {content : String}
    (hpending : a.lexer.pending = some (.comment content)) :
    ∃ b, a.mergeMustache m = ⟨b, none⟩ ∧ a.Receives m b := by
  refine ⟨_, ?_, .comment hstate hpending⟩
  have hadd : a.addToComment m = some { a with lexer := { a.lexer with
      state := .comment
      pending := some (.comment (content ++ Lexer.heldDashes a.lexer.state ++ m.text)) } } := by
    simp only [addToComment, Lexer.foldIntoComment?, hstate, hpending, Option.map_some]
  have hplace : a.placeMustache m = a.addToComment m := by
    unfold placeMustache
    revert hstate
    cases a.lexer.state <;> simp [LexerState.isInComment]
  rw [mergeMustache_of_state fun hdata => by simp [hdata, LexerState.isInComment] at hstate,
    hplace, hadd]

/-- Where an expression is refused, nothing happens. -/
theorem mergeMustache_of_refuses (hfits : a.lexer.Fits []) (h : a.Refuses) :
    a.mergeMustache m = ⟨a, some (.misplacedDirective m.text a.lexer.state)⟩ := by
  have hnone : a.lexer.state ≠ .data ∧ a.placeMustache m = none := by
    rcases h with hopening | ⟨tag, hend⟩
    · unfold placeMustache
      revert hopening
      cases a.lexer.state <;> simp [LexerState.isOpening]
    · have htag : a.lexer.state.isInTag = true := by
        rw [Lexer.Fits, hend] at hfits
        generalize a.lexer.state = state at hfits ⊢
        cases hfits with
        | tag _ _ hfinishes => exact hfinishes.isInTag
      unfold placeMustache addModifier addToValue
      rw [hend]
      revert htag
      cases a.lexer.state <;> simp [LexerState.isInTag]
  rw [mergeMustache_of_state hnone.1, hnone.2]

/-- Where an expression is not refused, it is received. -/
theorem receives_of_not_refuses (hfits : a.lexer.Fits []) (h : ¬ a.Refuses) (m : Mustache) :
    ∃ b, a.mergeMustache m = ⟨b, none⟩ ∧ a.Receives m b := by
  obtain ⟨hopening, hend⟩ := not_or.mp h
  have hinHand := hfits.inHand
  -- in a tag that is no end tag, there is a start tag
  have hstart : a.lexer.state.isInTag = true → ∃ tag, a.lexer.pending = some (.startTag tag) ∧
      (a.lexer.state.isInAttributeValue = true → tag.attributes ≠ []) := by
    intro htag
    obtain ⟨token, tag, hpending, hbegins, hne, -⟩ := hinHand.tag htag
    cases hbegins with
    | startTag tag modifiers => exact ⟨_, hpending, fun hvalue => hne (.inr (.inl hvalue))⟩
    | endTag tag => exact absurd ⟨tag, hpending⟩ hend
  cases hstate : a.lexer.state with
  | data => exact receives_of_data hfits hstate
  | tagOpen | endTagOpen | markupDeclaration =>
    rw [hstate] at hopening
    exact absurd rfl hopening
  | tagName | beforeAttributeName | attributeName | afterAttributeValueQuoted
  | selfClosingStartTag =>
    obtain ⟨tag, hpending, -⟩ := hstart (by rw [hstate]; rfl)
    exact receives_of_isBesideValues (by rw [hstate]; rfl) hpending
  | beforeAttributeValue | attributeValueDoubleQuoted | attributeValueSingleQuoted
  | attributeValueUnquoted =>
    obtain ⟨tag, hpending, hne⟩ := hstart (by rw [hstate]; rfl)
    exact receives_of_isInAttributeValue (by rw [hstate]; rfl) hpending (hne (by rw [hstate]; rfl))
  | commentStart | commentStartDash | comment | commentEndDash | commentEnd =>
    obtain ⟨content, hpending, -⟩ := hinHand.comment (by rw [hstate]; rfl)
    exact receives_of_isInComment (by rw [hstate]; rfl) hpending

/-- **Where an expression goes is exact.**  With a lexer that came about by reading and any stack,
it is refused where markup has begun and it is open which, and in an end tag, and nowhere else.
A refusal names the expression and the state, and changes nothing.  Otherwise the expression is
in its one place, and nothing else is changed. -/
theorem mergeMustache_exact {a : Assembly} (h : a.lexer.Reachable) (m : Mustache) :
    ((∃ e, (a.mergeMustache m).error = some e) ↔
      (a.lexer.state = .tagOpen ∨ a.lexer.state = .endTagOpen ∨
        a.lexer.state = .markupDeclaration) ∨ ∃ tag, a.lexer.pending = some (.endTag tag)) ∧
    (∀ b e, a.mergeMustache m = ⟨b, some e⟩ →
      e = .misplacedDirective m.text a.lexer.state ∧ b = a) ∧
    ∀ b, a.mergeMustache m = ⟨b, none⟩ → a.Receives m b := by
  have hrefuses : a.Refuses ↔ (a.lexer.state = .tagOpen ∨ a.lexer.state = .endTagOpen ∨
      a.lexer.state = .markupDeclaration) ∨ ∃ tag, a.lexer.pending = some (.endTag tag) := by
    refine or_congr_left ?_
    cases a.lexer.state <;> simp [LexerState.isOpening]
  rw [← hrefuses]
  by_cases hplace : a.Refuses
  · have herror := @mergeMustache_of_refuses a m h.fits hplace
    rw [herror]
    refine ⟨iff_of_true ⟨_, rfl⟩ hplace, ?_, ?_⟩
    · rintro b e ⟨⟩
      exact ⟨rfl, rfl⟩
    · rintro b ⟨⟩
  · obtain ⟨b, hmerged, hreceived⟩ := receives_of_not_refuses h.fits hplace m
    rw [hmerged]
    refine ⟨iff_of_false (by simp) hplace, ?_, ?_⟩
    · rintro b e ⟨⟩
    · rintro b ⟨⟩
      exact hreceived

/-- After one dash inside a comment the dash comes first; and an end tag refuses what a start tag
would receive in the same state. -/
theorem mergeMustache_exact_of_dash :
    (∃ a b : Assembly, a.lexer = ⟨.commentEndDash, some (.comment "a"), []⟩ ∧
      a.mergeMustache ⟨⟨"x", [], []⟩, true⟩ = ⟨b, none⟩ ∧ a.Receives ⟨⟨"x", [], []⟩, true⟩ b ∧
      b.lexer = ⟨.comment, some (.comment "a-\x7b\x7bx\x7d\x7d"), []⟩) ∧
    ∃ a : Assembly, a.lexer = ⟨.beforeAttributeName, some (.endTag ⟨"p", []⟩), []⟩ ∧
      ∃ e, (a.mergeMustache ⟨⟨"x", [], []⟩, true⟩).error = some e := by
  have hcomment : (Lexer.feed {} "<!--a-").2 = ⟨.commentEndDash, some (.comment "a"), []⟩ := by
    cbv
  have hend : (Lexer.feed {} "</p ").2 = ⟨.beforeAttributeName, some (.endTag ⟨"p", []⟩), []⟩ := by
    cbv
  have hplaced : mergeMustache ⟨(Lexer.feed {} "<!--a-").2, ⟨1, [], []⟩⟩ ⟨⟨"x", [], []⟩, true⟩ =
      ⟨⟨⟨.comment, some (.comment "a-\x7b\x7bx\x7d\x7d"), []⟩, ⟨1, [], []⟩⟩, none⟩ := by
    rw [hcomment]
    rfl
  have hinComment := mergeMustache_exact (a := ⟨(Lexer.feed {} "<!--a-").2, ⟨1, [], []⟩⟩)
    (.feed .fresh _) ⟨⟨"x", [], []⟩, true⟩
  have hinEndTag := mergeMustache_exact (a := ⟨(Lexer.feed {} "</p ").2, ⟨1, [], []⟩⟩)
    (.feed .fresh _) ⟨⟨"x", [], []⟩, true⟩
  refine ⟨⟨_, _, hcomment, hplaced, hinComment.2.2 _ hplaced, rfl⟩,
    ⟨⟨(Lexer.feed {} "</p ").2, ⟨1, [], []⟩⟩, hend, ?_⟩⟩
  exact hinEndTag.1.mpr (.inr ⟨⟨"p", []⟩, by rw [hend]⟩)

end Assembly

end TemplateTree
