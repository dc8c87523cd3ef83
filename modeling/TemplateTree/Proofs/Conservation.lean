/-
No directive is lost, and none comes twice.

The blocks of a program are the blocks of its tree.  Its expressions go to one of four places,
and in three of them they are held as they are: in place, applied to a tag, in a value.  In a
comment they are written out.

An expression that is put into a tag gets to the tree much later, when the tag is complete.  So
what is counted is what an assembly holds: all that is on the stack, and what is in hand.  Reading
moves expressions from hand to the stack, but the assembly holds the same ones before and after;
the one step that changes what it holds is the placing of an expression, by just this one.
-/
import TemplateTree.Proofs.Failure
import TemplateTree.Proofs.Independence
import TemplateTree.Proofs.Nest

namespace TemplateTree

/-! ### The expressions of a tag -/

/-- The expressions of a value. -/
def Attribute.mustaches (a : Attribute) : List Mustache :=
  a.value.filterMap Fragment.mustache?

/-- The expressions of the values of a tag. -/
def Tag.mustaches (t : Tag) : List Mustache :=
  t.attributes.flatMap Attribute.mustaches

/-- The expressions of a tree, but for those that are written out in a comment. -/
def Inventory.mustaches : Inventory Mustache where
  mustache m := [m]
  element tag := tag.modifiers ++ tag.toTag.mustaches

/-- What is listed of the token in hand. -/
def Inventory.inHand {α : Type} (I : Inventory α) (pending : Option Token) : List α :=
  pending.toList.flatMap I.ofToken

theorem Fragment.filterMap_join (content : String) (value : List Fragment) :
    (join content value).filterMap mustache? = value.filterMap mustache? := by
  rcases join_cases content value with ⟨earlier, last, rfl, hjoin⟩ | ⟨-, hjoin⟩
  · rw [hjoin, List.filterMap_append, List.filterMap_append]
    rfl
  · rw [hjoin, List.filterMap_append]
    exact List.append_nil _

theorem Attribute.mustaches_pushChar (a : Attribute) (c : Char) :
    (a.pushChar c).mustaches = a.mustaches := by
  unfold pushChar pushText
  split
  · rfl
  · exact Fragment.filterMap_join _ _

theorem Tag.mustaches_modifyLast {change : Attribute → Attribute}
    (h : ∀ a, (change a).mustaches = a.mustaches) (t : Tag) :
    { t with attributes := modifyLast change t.attributes }.mustaches = t.mustaches := by
  rcases List.eq_nil_or_concat' t.attributes with hnil | ⟨earlier, last, hlast⟩
  · simp [mustaches, hnil, modifyLast]
  · simp [mustaches, hlast, modifyLast_append, h]

namespace Inventory

/-! ### Reading -/

theorem inHand_onTag {change : Tag → Tag} (h : ∀ t, (change t).mustaches = t.mustaches)
    (pending : Option Token) :
    mustaches.inHand (Turn.onTag change pending) = mustaches.inHand pending := by
  cases pending with
  | none => rfl
  | some token =>
    cases token with
    | startTag tag =>
      show tag.modifiers ++ (change tag.toTag).mustaches ++ [] =
        tag.modifiers ++ tag.toTag.mustaches ++ []
      rw [h]
    | _ => rfl

/-- A step puts no expression into the token in hand, and takes none out. -/
theorem inHand_edit {state : LexerState} {pending : Option Token}
    {edit : Option Token → Option Token} (hfits : state.Fits [] pending)
    (hedit : Lexer.Edits state edit) :
    mustaches.inHand (edit pending) = mustaches.inHand pending := by
  cases hedit with
  | opensComment hstate =>
    rw [hfits.of_opening (.inr (.inr hstate))]
    rfl
  | @turn c edit hturn =>
    cases hturn with
    | keeps => rfl
    | addsText hstate d => rcases hfits.of_text hstate with rfl | ⟨content, rfl⟩ <;> rfl
    | addsComment hstate text =>
      obtain ⟨content, rfl, -⟩ := hfits.of_isInComment hstate
      rfl
    | beginsStartTag =>
      rw [hfits.of_opening (.inl rfl)]
      rfl
    | beginsEndTag =>
      rw [hfits.of_opening (.inr (.inl rfl))]
      rfl
    | addsToName =>
      have hsame : ∀ t : Tag, (t.addToName c).mustaches = t.mustaches := fun _ => rfl
      exact inHand_onTag hsame pending
    | startsAttribute =>
      have hsame : ∀ t : Tag, (t.startAttribute c).mustaches = t.mustaches := by
        simp [Tag.mustaches, Tag.startAttribute, Attribute.mustaches]
      exact inHand_onTag hsame pending
    | addsToAttributeName =>
      have hsame : ∀ t : Tag, (t.addToAttributeName c).mustaches = t.mustaches :=
        Tag.mustaches_modifyLast fun _ => rfl
      exact inHand_onTag hsame pending
    | addsToAttributeValue hstate =>
      have hsame : ∀ t : Tag, (t.addToAttributeValue c).mustaches = t.mustaches :=
        Tag.mustaches_modifyLast fun a => a.mustaches_pushChar c
      exact inHand_onTag hsame pending
    | closesSelf =>
      cases pending with
      | none => rfl
      | some token => cases token <;> rfl

/-- **The expressions of a token that is completed are those that it had in hand.** -/
theorem inHand_step {l next : Lexer} {completed : Option Token} (hfits : l.Fits [])
    (h : l.step? = some (completed, next)) :
    mustaches.inHand completed ++ mustaches.inHand next.pending = mustaches.inHand l.pending := by
  obtain ⟨state, pending, unread⟩ := l
  rcases Lexer.step?_uniform state unread with hstop | ⟨move, hmoves, hmove⟩
  · simp [hstop pending] at h
  · rw [hmove pending] at h
    cases hmoves with
    | keeps next rest hedit =>
      cases h
      exact inHand_edit hfits hedit
    | handsOut next rest hedit =>
      cases h
      simpa [inHand] using inHand_edit hfits hedit

theorem inHand_reading {l last : Lexer} {tokens : List Token} (h : l.Reading tokens last)
    (hfits : l.Fits []) :
    tokens.flatMap mustaches.ofToken ++ mustaches.inHand last.pending =
      mustaches.inHand l.pending := by
  induction h with
  | stop h => rfl
  | step h hrest ih =>
    rw [← inHand_step hfits h, ← ih (hfits.next h), List.flatMap_append, List.append_assoc]
    rfl

end Inventory

/-! ### What an assembly holds -/

/-- Of expressions with states of the lexer, the expressions that come outside of comments. -/
def outsideComments (placings : List (Mustache × LexerState)) : List Mustache :=
  (placings.filter (!·.2.isInComment)).map (·.1)

@[simp] theorem outsideComments_append (first second : List (Mustache × LexerState)) :
    outsideComments (first ++ second) = outsideComments first ++ outsideComments second := by
  simp [outsideComments]

/-- The expression that an operation brings. -/
def Operation.mustache? : Operation → Option Mustache
  | .mustache m => some m
  | _ => none

/-- An expression inside a tag is none inside a comment. -/
theorem LexerState.not_isInComment_of_isInTag {state : LexerState} (h : state.isInTag = true) :
    state.isInComment = false := by
  cases state <;> first | rfl | cases h

namespace Assembly

open Inventory

/-- The expressions on the stack and in hand, but for those in comments. -/
def held (a : Assembly) : List Mustache :=
  mustaches.ofStack a.stack ++ mustaches.inHand a.lexer.pending

variable {a b : Assembly}

theorem held_feed (hfits : a.lexer.Fits []) {text : String} (h : a.feed text = ⟨b, none⟩) :
    b.held = a.held := by
  rw [feed_eq_mergeTokens] at h
  match hmerge : a.mergeTokens (a.lexer.read text.toList).1 with
  | ⟨c, some e⟩ =>
    rw [hmerge] at h
    cases h
  | ⟨c, none⟩ =>
    rw [hmerge] at h
    cases h
    have hread := inHand_reading (a.lexer.reading_read text.toList) hfits
    show mustaches.ofStack c.stack ++ mustaches.inHand (a.lexer.read text.toList).2.pending = a.held
    rw [ofStack_mergeTokens _ _ hmerge, List.append_assoc, hread]
    rfl

theorem held_flushText (a : Assembly) : a.flushText.held = a.held := by
  have hmoved := a.textMoved_flushText
  generalize a.flushText = b at hmoved
  cases hmoved with
  | text hstate hpending => simp [held, ofStack_push, hpending, inHand, ofToken]
  | nothing => rfl

/-- **An expression that is placed outside of a comment is held from then on**, and nothing else
changes. -/
theorem held_places {m : Mustache} (h : a.Places m b) :
    b.held.Perm (a.held ++ outsideComments [(m, a.lexer.state)]) := by
  have houtside : a.lexer.state.isInComment = false →
      outsideComments [(m, a.lexer.state)] = [m] := by
    intro hstate
    simp [outsideComments, hstate]
  cases h with
  | node hstate =>
    rw [houtside (by rw [hstate]; rfl), held, held, ofStack_push, ofRow_mustache, List.append_assoc,
      List.append_assoc]
    exact List.perm_append_comm.append_left _
  | @modifier tag hstate hpending =>
    rw [houtside (LexerState.not_isInComment_of_isInTag hstate), held, held, hpending,
      List.append_assoc]
    refine List.Perm.append_left _ ?_
    simp only [inHand, ofToken, mustaches, StartTag.addModifier, Option.toList_some,
      List.flatMap_singleton, List.append_assoc]
    exact List.perm_append_comm.append_left _
  | @value tag earlier last hstate hpending hlast =>
    have htag := LexerState.isInTag_of_isInAttributeValue hstate
    rw [houtside (LexerState.not_isInComment_of_isInTag htag), held, held, hpending]
    simp [inHand, ofToken, mustaches, Tag.mustaches, Attribute.mustaches, Attribute.pushMustache,
      hlast, Fragment.mustache?]
  | comment hstate hpending =>
    simp [held, hpending, inHand, ofToken, mustaches, outsideComments, hstate]

/-- **Each operation that succeeds holds what was held, and the expression that it brings.** -/
theorem held_apply (hfits : a.lexer.Fits []) {operation : Operation}
    (honce : operation.InverseOnceAt a.stack.blocks) (htoken : operation.token? = none)
    (h : a.apply operation = ⟨b, none⟩) :
    b.held.Perm (a.held ++ outsideComments (operation.placing a.lexer.state)) := by
  have hnone : ∀ {b : Assembly}, b.held = a.held → b.held.Perm (a.held ++ outsideComments []) := by
    intro b heq
    rw [heq, show outsideComments [] = [] from rfl, List.append_nil]
  have hflush := a.held_flushText
  cases operation with
  | feed text => exact hnone (held_feed hfits h)
  | token t => cases htoken
  | mustache m =>
    rw [apply, mergeMustache] at h
    split at h
    · rename_i placed hplace
      cases h
      have hplaced := held_places (places_of_placeMustache hplace)
      rwa [hflush, (lexer_flushText a).1] at hplaced
    · cases h
  | enterBlock expression =>
    rw [apply, enterBlock] at h
    split at h
    · obtain ⟨stack, hopen, rfl⟩ := stack_of_ofStack h
      refine hnone (Eq.trans ?_ hflush)
      rw [held, ofStack_openBlock _ hopen]
      simp [held, mustaches]
    · cases h
  | flushText =>
    cases h
    exact hnone hflush
  | closeProgram =>
    rw [apply, closeProgram] at h
    split at h
    · cases h
      exact hnone hflush
    · cases h
  | startInverse =>
    obtain ⟨stack, hstart, rfl⟩ := stack_of_ofStack h
    refine hnone ?_
    rw [held, ofStack_startInverse _ (fun _ => rfl) honce hstart]
    rfl
  | leaveBlock =>
    obtain ⟨stack, hleave, rfl⟩ := stack_of_ofStack h
    refine hnone ?_
    rw [held, ofStack_leaveBlock _ hleave]
    rfl

/-- **A run that succeeds holds all expressions that came outside of comments**, each as often as
it came. -/
theorem held_run :
    ∀ (operations : List Operation) {a b : Assembly}, a.lexer.Fits [] →
      Operation.InverseOnce a.stack.blocks operations →
      (∀ operation ∈ operations, operation.token? = none) → a.run operations = ⟨b, none⟩ →
        b.held.Perm (a.held ++ outsideComments (a.placings operations)) := by
  intro operations
  induction operations with
  | nil =>
    intro a b _ _ _ h
    cases h
    simp [placings, outsideComments]
  | cons operation rest ih =>
    intro a b hfits honce htokens h
    obtain ⟨htoken, hrest⟩ := List.forall_mem_cons.mp htokens
    obtain ⟨next, happly, hlater⟩ := Outcome.done_of_andThen h
    have hnext := fits_apply hfits operation
    have honce' := honce.2
    rw [happly] at hnext
    rw [← blocks_apply happly] at honce'
    have hfirst := held_apply hfits honce.1 htoken happly
    rw [placings, happly, outsideComments_append, ← List.append_assoc]
    exact (ih hnext honce' hrest hlater).trans (hfirst.append_right _)

/-- At the end nothing is in hand, and the tree holds what the assembly held. -/
theorem held_finish {nodes : List Node} (h : a.finish = .ok nodes) :
    mustaches.ofRow nodes = a.held := by
  obtain ⟨hpending, hclosed, rfl⟩ := finish_eq_ok_iff.mp h
  rw [← held_flushText a, held, hpending, ofStack, hclosed]
  simp [inHand]

/-! ### Programs -/

/-- The expressions come as the operations bring them, wherever the lexer is. -/
theorem map_placings :
    ∀ (operations : List Operation) (a : Assembly),
      (a.placings operations).map (·.1) = operations.filterMap Operation.mustache? := by
  intro operations
  induction operations with
  | nil => intro a; rfl
  | cons operation rest ih =>
    intro a
    rw [placings, List.map_append, ih, List.filterMap_cons]
    cases operation <;> rfl

end Assembly

namespace Statement

mutual

theorem filterMap_operations (statement : Statement) :
    statement.operations.filterMap Operation.mustache? =
      statement.withDescendants.filterMap mustache? := by
  cases statement with
  | content text | mustache m => rfl
  | block expression body inverse =>
    rw [operations, withDescendants, List.filterMap_cons_none rfl, List.filterMap_cons_none rfl,
      List.filterMap_append, List.filterMap_append, filterMap_operationsOf body,
      List.filterMap_cons_none rfl, List.filterMap_append, filterMap_inverseOperations inverse]
    simp [Operation.mustache?]

/-- The operations of a program bring its expressions, in source order. -/
theorem filterMap_operationsOf (program : List Statement) :
    (operationsOf program).filterMap Operation.mustache? =
      (descendantsOf program).filterMap mustache? := by
  cases program with
  | nil => rfl
  | cons statement rest =>
    rw [operationsOf, descendantsOf, List.filterMap_append, List.filterMap_append,
      filterMap_operations statement, filterMap_operationsOf rest]

theorem filterMap_inverseOperations (inverse : Option (List Statement)) :
    (inverseOperations inverse).filterMap Operation.mustache? =
      (descendantsOfInverse inverse).filterMap mustache? := by
  cases inverse with
  | none => rfl
  | some program =>
    rw [inverseOperations, descendantsOfInverse, List.filterMap_cons_none rfl,
      List.filterMap_append, filterMap_operationsOf program]
    simp [Operation.mustache?]

end

end Statement

/-! ### Trees -/

/-- What the tree of a program has of its directives. -/
structure Conserves (program : Program) (maxDepth : Nat) (nodes : List Node) : Prop where
  /-- The blocks are the same, in the same order. -/
  blocks : Inventory.blocks.ofRow nodes = Statement.blocksOf program
  /-- Each expression of the program comes once, in one state of the lexer. -/
  placings :
    ((Assembly.fresh maxDepth).placings (Statement.operationsOf program)).map (·.1) =
      (Statement.descendantsOf program).filterMap Statement.mustache?
  /-- Those that come outside of comments are in place, applied to tags and in values. -/
  mustaches :
    (Inventory.mustaches.ofRow nodes).Perm
      (outsideComments ((Assembly.fresh maxDepth).placings (Statement.operationsOf program)))
  /-- Those that come inside a comment are written out in the comments, in their order. -/
  comments : ∃ rows : List (List Fragment),
    Inventory.comments.ofRow nodes = rows.map Fragment.writtenRow ∧
      Fragment.mustachesIn rows =
        inComments ((Assembly.fresh maxDepth).placings (Statement.operationsOf program))

/-- **No directive is dropped, doubled or put elsewhere**: a tree has the blocks and the
expressions of its program. -/
theorem assemble_conserves {program : Program} {maxDepth : Nat} {nodes : List Node}
    (h : assemble program maxDepth = .ok nodes) : Conserves program maxDepth nodes := by
  have hfits : (Assembly.fresh maxDepth).lexer.Fits [] := LexerState.Fits.data
  have honce := Statement.inverseOnce_operationsOf program []
  have hmirrors := (Replacement.same.mirrors_program program maxDepth).tree
  rw [assemble_eq_tree] at h
  rw [h] at hmirrors
  obtain ⟨b, hrun, hfinish⟩ := Outcome.done_of_tree h
  have hheld := Assembly.held_run _ hfits honce (Statement.token?_operationsOf program) hrun
  rw [← Assembly.held_finish hfinish] at hheld
  refine ⟨Assembly.blocks_of_run hrun hfinish, ?_, hheld, hmirrors.comments⟩
  rw [Assembly.map_placings, Statement.filterMap_operationsOf]

/-- An expression in each of the four places, one of them in a block with two rows. -/
theorem assemble_conserves_of_places :
    ∃ nodes, assemble
        [.content "<p ", .mustache ⟨⟨"x", [], []⟩, true⟩, .content " a=",
          .mustache ⟨⟨"y", [], []⟩, true⟩, .content "><!--", .mustache ⟨⟨"z", [], []⟩, true⟩,
          .content "-->", .block ⟨"if", [], []⟩ [.mustache ⟨⟨"x", [], []⟩, false⟩] (some []),
          .content "</p>"] 2 = .ok nodes ∧
      Conserves
        [.content "<p ", .mustache ⟨⟨"x", [], []⟩, true⟩, .content " a=",
          .mustache ⟨⟨"y", [], []⟩, true⟩, .content "><!--", .mustache ⟨⟨"z", [], []⟩, true⟩,
          .content "-->", .block ⟨"if", [], []⟩ [.mustache ⟨⟨"x", [], []⟩, false⟩] (some []),
          .content "</p>"] 2 nodes := by
  have h : assemble
      [.content "<p ", .mustache ⟨⟨"x", [], []⟩, true⟩, .content " a=",
        .mustache ⟨⟨"y", [], []⟩, true⟩, .content "><!--", .mustache ⟨⟨"z", [], []⟩, true⟩,
        .content "-->", .block ⟨"if", [], []⟩ [.mustache ⟨⟨"x", [], []⟩, false⟩] (some []),
        .content "</p>"] 2 =
      .ok [.element ⟨⟨"p", [⟨"a", [.mustache ⟨⟨"y", [], []⟩, true⟩]⟩]⟩, false, [⟨⟨"x", [], []⟩, true⟩]⟩
        [.comment "\x7b\x7bz\x7d\x7d",
          .block ⟨"if", [], []⟩ [.mustache ⟨⟨"x", [], []⟩, false⟩] (some [])]] := by
    cbv
  exact ⟨_, h, assemble_conserves h⟩

end TemplateTree
