/-
The structure of a tree does not depend on its expressions.

Other expressions in the same places make the same tree with these expressions in it, or fail
for the same reason.  An expression may be written with brackets, quotes or dashes in it; none
of them is ever read as markup.  Not even in a comment, where expressions are written out:
what is written there is never read again.

Nothing is decided by an expression, so each operation on an assembly mirrors the same
operation after the replacement, and from that runs do.
-/
import TemplateTree.Proofs.Composition
import TemplateTree.Proofs.Mirror

namespace TemplateTree

namespace Replacement

@[simp] theorem startTag_same (tag : StartTag) : same.startTag tag = tag := by
  have hfragment : same.fragment = id := by
    funext f
    cases f <;> rfl
  have hattr : same.attr = id := by
    funext a
    simp [attr, hfragment]
  have hmustache : same.mustache = id := rfl
  simp [startTag, Replacement.tag, hattr, hmustache]

/-! ### Stacks -/

/-- Nodes with the same sketch, whose comments consist of the same fragments. -/
structure MirrorsNode (r : Replacement) (rows : List (List Fragment)) (node node' : Node) :
    Prop where
  sketch : same.sketch node' = r.sketch node
  comments : Inventory.comments.ofRow [node] = rows.map Fragment.writtenRow
  replaced : Inventory.comments.ofRow [node'] =
    rows.map fun row => Fragment.writtenRow (row.map r.fragment)

/-- The same of stacks. -/
structure MirrorsStack (r : Replacement) (rows : List (List Fragment)) (s s' : OpenStack) :
    Prop where
  sketch : same.stack s' = r.stack s
  comments : Inventory.comments.ofStack s = rows.map Fragment.writtenRow
  replaced : Inventory.comments.ofStack s' =
    rows.map fun row => Fragment.writtenRow (row.map r.fragment)

/-- The innermost open nodes before and after a replacement. -/
inductive SameTop (r : Replacement) : List OpenNode → List OpenNode → Prop
  | root : SameTop r [] []
  | element (tag : StartTag) (children children' : List Node) (outer outer' : List OpenNode) :
    SameTop r (.element tag children :: outer) (.element (r.startTag tag) children' :: outer')
  | block (expression : Expression) (children children' : List Node)
      {inverse inverse' : Option (List Node)} (hinverse : inverse'.isSome = inverse.isSome)
      (outer outer' : List OpenNode) :
    SameTop r (.block expression children inverse :: outer)
      (.block (r.expression expression) children' inverse' :: outer')

/-- A step on a stack that is done on both, or on neither. -/
inductive MirrorsStep (r : Replacement) (rows : List (List Fragment)) :
    Step OpenStack → Step OpenStack → Prop
  | ok {s s' : OpenStack} (h : r.MirrorsStack rows s s') : MirrorsStep r rows (.ok s) (.ok s')
  | error {e e' : TemplateError} {left left' : OpenStack} (h : r.SameError e e') :
    MirrorsStep r rows (.error e left) (.error e' left')

theorem isSome_sketchOfInverse (r : Replacement) (inverse : Option (List Node)) :
    (r.sketchOfInverse inverse).isSome = inverse.isSome := by
  cases inverse <;> rfl

variable {r : Replacement} {rows more : List (List Fragment)} {s s' : OpenStack}

theorem mirrorsNode_text (content : String) : r.MirrorsNode [] (.text content) (.text content) :=
  ⟨rfl, by simp, by simp⟩

theorem mirrorsNode_mustache (m : Mustache) :
    r.MirrorsNode [] (.mustache m) (.mustache (r.mustache m)) :=
  ⟨rfl, by simp [Inventory.comments], by simp [Inventory.comments]⟩

namespace MirrorsStack

theorem empty (maxDepth : Nat) : r.MirrorsStack [] { maxDepth } { maxDepth } :=
  ⟨rfl, rfl, rfl⟩

theorem depth_eq (h : r.MirrorsStack rows s s') : s'.depth = s.depth := by
  rw [← same.depth_stack s', h.sketch, r.depth_stack]

theorem maxDepth_eq (h : r.MirrorsStack rows s s') : s'.maxDepth = s.maxDepth := by
  rw [← same.maxDepth_stack s', h.sketch, r.maxDepth_stack]

theorem sameTop (h : r.MirrorsStack rows s s') : r.SameTop s.nodes s'.nodes := by
  have hnodes : s'.nodes.map same.openNode = s.nodes.map r.openNode :=
    congrArg OpenStack.nodes h.sketch
  match hs : s.nodes, hs' : s'.nodes with
  | [], [] => exact .root
  | [], _ :: _ => simp [hs, hs'] at hnodes
  | _ :: _, [] => simp [hs, hs'] at hnodes
  | top :: outer, top' :: outer' =>
    rw [hs, hs', List.map_cons, List.map_cons] at hnodes
    have htop := (List.cons.inj hnodes).1
    cases top with
    | element tag children =>
      cases top' with
      | element tag' children' =>
        simp only [openNode, startTag_same, OpenNode.element.injEq] at htop
        rw [htop.1]
        exact .element tag children children' outer outer'
      | block expression' children' inverse' => cases htop
    | block expression children inverse =>
      cases top' with
      | element tag' children' => cases htop
      | block expression' children' inverse' =>
        simp only [openNode, OpenNode.block.injEq] at htop
        have hexpression : expression' = r.expression expression := htop.1
        rw [hexpression]
        refine .block expression children children' ?_ outer outer'
        rw [← same.isSome_sketchOfInverse, htop.2.2, isSome_sketchOfInverse]

/-- The same thing is open. -/
theorem opened (h : r.MirrorsStack rows s s') : r.SameOpened s.opened s'.opened := by
  have htop := h.sameTop
  unfold OpenStack.opened
  generalize s.nodes = nodes at htop
  generalize s'.nodes = nodes' at htop
  cases htop with
  | root => exact .fragment
  | element tag => exact .element tag.name
  | block expression => exact .block expression

theorem push (h : r.MirrorsStack rows s s') {node node' : Node}
    (hnode : r.MirrorsNode more node node') :
    r.MirrorsStack (rows ++ more) (s.push node) (s'.push node') where
  sketch := by rw [stack_push, stack_push, h.sketch, hnode.sketch]
  comments := by rw [Inventory.ofStack_push, h.comments, hnode.comments, List.map_append]
  replaced := by rw [Inventory.ofStack_push, h.replaced, hnode.replaced, List.map_append]

/-- The innermost node is closed on both stacks. -/
theorem close (h : r.MirrorsStack rows s s') {top top' : OpenNode} {outer outer' : List OpenNode}
    (hnodes : s.nodes = top :: outer) (hnodes' : s'.nodes = top' :: outer') :
    r.MirrorsStack rows (OpenStack.push { s with nodes := outer } top.close)
      (OpenStack.push { s' with nodes := outer' } top'.close) where
  sketch := by
    have hclose := congrArg OpenStack.closeTop h.sketch
    rw [← stack_closeTop, ← stack_closeTop, OpenStack.closeTop, OpenStack.closeTop, hnodes,
      hnodes'] at hclose
    exact hclose
  comments := by rw [Inventory.ofStack_close _ hnodes, h.comments]
  replaced := by rw [Inventory.ofStack_close _ hnodes', h.replaced]

/-- A node without comments opens on both stacks, if there is room. -/
theorem openNode (h : r.MirrorsStack rows s s') {node node' : OpenNode}
    (hsketch : same.openNode node' = r.openNode node)
    (hnode : Inventory.comments.ofOpenNode node = [])
    (hnode' : Inventory.comments.ofOpenNode node' = []) :
    r.MirrorsStep rows (s.openNode node) (s'.openNode node') := by
  unfold OpenStack.openNode
  rw [h.depth_eq, h.maxDepth_eq]
  split
  · exact .error (.nestingTooDeep _)
  · refine .ok ⟨?_, ?_, ?_⟩
    · have hnodes : s'.nodes.map same.openNode = s.nodes.map r.openNode :=
        congrArg OpenStack.nodes h.sketch
      have hroot : same.sketchOf s'.root = r.sketchOf s.root := congrArg OpenStack.root h.sketch
      simp [stack, hsketch, hnodes, hroot]
    · rw [← h.comments]
      simp [Inventory.ofStack, hnode]
    · rw [← h.replaced]
      simp [Inventory.ofStack, hnode']

/-- An element begins on both stacks. -/
theorem element (h : r.MirrorsStack rows s s') (tag : StartTag) :
    r.MirrorsStep rows
      (if tag.selfClosing then .ok (s.push (.element tag [])) else s.openNode (.element tag []))
      (if tag.selfClosing then .ok (s'.push (.element (r.startTag tag) []))
        else s'.openNode (.element (r.startTag tag) [])) := by
  split
  · have hnode : r.MirrorsNode [] (.element tag []) (.element (r.startTag tag) []) := {
      sketch := by simp [Replacement.sketch, sketchOf]
      comments := by simp [Inventory.comments]
      replaced := by simp [Inventory.comments] }
    have hpush := h.push hnode
    rw [List.append_nil] at hpush
    exact .ok hpush
  · refine h.openNode ?_ ?_ ?_
    · simp [Replacement.openNode, sketchOf]
    · simp [Inventory.ofOpenNode, Inventory.comments]
    · simp [Inventory.ofOpenNode, Inventory.comments]

theorem openElement (h : r.MirrorsStack rows s s') (tag : StartTag) :
    r.MirrorsStep rows (s.openElement tag) (s'.openElement (r.startTag tag)) :=
  h.element { tag with name := asciiLower tag.name }

/-- An end tag ends both elements or none; names are all that is compared. -/
theorem closeElement (h : r.MirrorsStack rows s s') (name : String) :
    r.MirrorsStep rows (s.closeElement name) (s'.closeElement name) := by
  have htop := h.sameTop
  have hopened := h.opened
  unfold OpenStack.closeElement
  rw [h.depth_eq]
  generalize hnodes : s.nodes = nodes at htop
  generalize hnodes' : s'.nodes = nodes' at htop
  cases htop with
  | root => exact .error (.unexpectedCloseTag name hopened s.depth)
  | element tag children children' outer outer' =>
    have hname : (r.startTag tag).name = tag.name := rfl
    simp only [hname]
    split
    · exact .ok (h.close hnodes hnodes')
    · exact .error (.unmatchedCloseTag tag.name name s.depth)
  | block => exact .error (.unexpectedCloseTag name hopened s.depth)

/-- **A token does the same on both stacks.** -/
theorem mergeToken (h : r.MirrorsStack rows s s') {t t' : Token}
    (htoken : r.MirrorsToken more t t') :
    r.MirrorsStep (rows ++ more) (s.mergeToken t) (s'.mergeToken t') := by
  cases htoken with
  | text content => exact .ok (h.push (mirrorsNode_text content))
  | comment row =>
    exact .ok (h.push ⟨rfl, by simp [Inventory.comments], by simp [Inventory.comments]⟩)
  | startTag tag =>
    rw [List.append_nil]
    exact h.openElement tag
  | endTag tag =>
    rw [List.append_nil]
    exact h.closeElement tag.name

theorem openBlock (h : r.MirrorsStack rows s s') (expression : Expression) :
    r.MirrorsStep rows (s.openBlock expression) (s'.openBlock (r.expression expression)) :=
  h.openNode rfl rfl rfl

/-- A block that has its other part already would lose it, and its comments with it. -/
theorem startInverse (h : r.MirrorsStack rows s s')
    (honce : Operation.startInverse.InverseOnceAt s.blocks) :
    r.MirrorsStep rows s.startInverse s'.startInverse := by
  have htop := h.sameTop
  have hopened := h.opened
  generalize hnodes : s.nodes = nodes at htop
  generalize hnodes' : s'.nodes = nodes' at htop
  cases htop with
  | root =>
    simp only [OpenStack.startInverse, hnodes, hnodes', h.depth_eq]
    exact .error (.unterminatedStructure hopened s.depth)
  | element =>
    simp only [OpenStack.startInverse, hnodes, hnodes', h.depth_eq]
    exact .error (.unterminatedStructure hopened s.depth)
  | @block expression children children' inverse inverse' hinverse outer outer' =>
    have honce' : Operation.startInverse.InverseOnceAt s'.blocks := by
      simpa [Operation.InverseOnceAt, OpenStack.blocks, hnodes, hnodes', OpenNode.block?,
        hinverse] using honce
    have hstart : s.startInverse =
        .ok { s with nodes := .block expression children (some []) :: outer } := by
      rw [OpenStack.startInverse, hnodes]
    have hstart' : s'.startInverse =
        .ok { s' with nodes := .block (r.expression expression) children' (some []) :: outer' } := by
      rw [OpenStack.startInverse, hnodes']
    have hcomments := Inventory.comments.ofStack_startInverse (fun _ => rfl) honce hstart
    have hcomments' := Inventory.comments.ofStack_startInverse (fun _ => rfl) honce' hstart'
    rw [hstart, hstart']
    refine .ok ⟨?_, hcomments.trans h.comments, hcomments'.trans h.replaced⟩
    -- but for the part that is begun the sketches are what they were
    have hsketch := h.sketch
    simp only [stack, hnodes, hnodes', List.map_cons, Replacement.openNode, OpenStack.mk.injEq,
      List.cons.injEq, OpenNode.block.injEq] at hsketch
    obtain ⟨hmaxDepth, hroot, ⟨hexpression, hchildren, -⟩, houter⟩ := hsketch
    simp only [stack, List.map_cons, Replacement.openNode, hmaxDepth, hroot, hexpression, hchildren,
      houter, sketchOfInverse, sketchOf]

theorem leaveBlock (h : r.MirrorsStack rows s s') :
    r.MirrorsStep rows s.leaveBlock s'.leaveBlock := by
  have htop := h.sameTop
  have hopened := h.opened
  unfold OpenStack.leaveBlock
  rw [h.depth_eq]
  generalize hnodes : s.nodes = nodes at htop
  generalize hnodes' : s'.nodes = nodes' at htop
  cases htop with
  | root => exact .error (.unterminatedStructure hopened s.depth)
  | element => exact .error (.unterminatedStructure hopened s.depth)
  | block => exact .ok (h.close hnodes hnodes')

end MirrorsStack

/-! ### Assemblies -/

/-- Assemblies before and after a replacement.  The comments on the stack and the one in hand
have in them the expressions `folded`. -/
def MirrorsAssembly (r : Replacement) (folded : List Mustache) (a a' : Assembly) : Prop :=
  ∃ finished inHand, r.MirrorsStack finished a.stack a'.stack ∧
    r.MirrorsLexer inHand a.lexer a'.lexer ∧ Fragment.mustachesIn (finished ++ inHand) = folded

/-- Operations that are done on both assemblies, or fail on both for the same reason. -/
inductive MirrorsOutcome (r : Replacement) (folded : List Mustache) : Outcome → Outcome → Prop
  | done {a a' : Assembly} (h : r.MirrorsAssembly folded a a') :
    MirrorsOutcome r folded ⟨a, none⟩ ⟨a', none⟩
  | failed {a a' : Assembly} {e e' : TemplateError} (h : r.SameError e e') :
    MirrorsOutcome r folded ⟨a, some e⟩ ⟨a', some e'⟩

variable {folded : List Mustache} {a a' : Assembly} {inHand : List (List Fragment)}

/-- Operations that bring no expression. -/
theorem MirrorsOutcome.none_placed {o o' : Outcome} (h : r.MirrorsOutcome folded o o') :
    r.MirrorsOutcome (folded ++ inComments []) o o' := by
  rwa [show inComments [] = [] from rfl, List.append_nil]

theorem mirrorsAssembly_fresh (maxDepth : Nat) :
    r.MirrorsAssembly [] (.fresh maxDepth) (.fresh maxDepth) :=
  ⟨[], [], .empty maxDepth, ⟨rfl, rfl, .none⟩, rfl⟩

/-- A step on the stacks is one of the assemblies. -/
theorem MirrorsStep.ofStack {step step' : Step OpenStack} (h : r.MirrorsStep rows step step')
    (hlexer : r.MirrorsLexer inHand a.lexer a'.lexer) :
    r.MirrorsOutcome (Fragment.mustachesIn (rows ++ inHand)) (.ofStack a step)
      (.ofStack a' step') := by
  cases h with
  | ok h => exact .done ⟨rows, inHand, h, hlexer, rfl⟩
  | error h => exact .failed h

theorem MirrorsAssembly.ofStack (h : r.MirrorsAssembly folded a a')
    {step step' : Step OpenStack}
    (hstep : ∀ {rows}, r.MirrorsStack rows a.stack a'.stack → r.MirrorsStep rows step step') :
    r.MirrorsOutcome folded (.ofStack a step) (.ofStack a' step') := by
  obtain ⟨finished, inHand, hstack, hlexer, rfl⟩ := h
  exact (hstep hstack).ofStack hlexer

namespace MirrorsAssembly

theorem state_eq (h : r.MirrorsAssembly folded a a') : a'.lexer.state = a.lexer.state := by
  obtain ⟨finished, inHand, -, hlexer, -⟩ := h
  exact hlexer.state

/-- Text in hand is the same text, and is taken from both or from neither. -/
theorem flushText (h : r.MirrorsAssembly folded a a') :
    r.MirrorsAssembly folded a.flushText a'.flushText := by
  obtain ⟨⟨state, pending, unread⟩, stack⟩ := a
  obtain ⟨⟨state', pending', unread'⟩, stack'⟩ := a'
  obtain ⟨finished, inHand, hstack, ⟨rfl, rfl, hinHand⟩, hfolded⟩ := h
  by_cases hdata : state' = .data
  · subst hdata
    cases hinHand with
    | none => exact ⟨finished, [], hstack, ⟨rfl, rfl, .none⟩, hfolded⟩
    | some htoken =>
      cases htoken with
      | text content =>
        have hpush := hstack.push (mirrorsNode_text content)
        rw [List.append_nil] at hpush
        exact ⟨finished, [], hpush, ⟨rfl, rfl, .none⟩, hfolded⟩
      | comment row =>
        exact ⟨finished, _, hstack, ⟨rfl, rfl, .some (.comment row)⟩, hfolded⟩
      | startTag tag => exact ⟨finished, _, hstack, ⟨rfl, rfl, .some (.startTag tag)⟩, hfolded⟩
      | endTag tag => exact ⟨finished, _, hstack, ⟨rfl, rfl, .some (.endTag tag)⟩, hfolded⟩
  · rw [Assembly.flushText_of_state hdata, Assembly.flushText_of_state hdata]
    exact ⟨finished, inHand, hstack, ⟨rfl, rfl, hinHand⟩, hfolded⟩

end MirrorsAssembly

/-! ### Expressions in place -/

/-- An expression that is placed in both assemblies, or in neither. -/
inductive MirrorsPlacing (r : Replacement) (folded : List Mustache) :
    Option Assembly → Option Assembly → Prop
  | placed {a a' : Assembly} (h : r.MirrorsAssembly folded a a') :
    MirrorsPlacing r folded (some a) (some a')
  | misplaced : MirrorsPlacing r folded none none

namespace MirrorsAssembly

theorem addModifier (h : r.MirrorsAssembly folded a a') (m : Mustache) :
    r.MirrorsPlacing folded (a.addModifier m) (a'.addModifier (r.mustache m)) := by
  obtain ⟨⟨state, pending, unread⟩, stack⟩ := a
  obtain ⟨⟨state', pending', unread'⟩, stack'⟩ := a'
  obtain ⟨finished, inHand, hstack, ⟨rfl, rfl, hinHand⟩, hfolded⟩ := h
  cases hinHand with
  | none => exact .misplaced
  | some htoken =>
    cases htoken with
    | text | comment | endTag => exact .misplaced
    | startTag tag =>
      have htag := MirrorsToken.startTag (r := r) (tag.addModifier m)
      simp only [startTag, StartTag.addModifier, List.map_append, List.map_cons, List.map_nil] at htag
      exact .placed ⟨finished, [], hstack, ⟨rfl, rfl, .some htag⟩, hfolded⟩

theorem addToValue (h : r.MirrorsAssembly folded a a') (m : Mustache) :
    r.MirrorsPlacing folded (a.addToValue m) (a'.addToValue (r.mustache m)) := by
  obtain ⟨⟨state, pending, unread⟩, stack⟩ := a
  obtain ⟨⟨state', pending', unread'⟩, stack'⟩ := a'
  obtain ⟨finished, inHand, hstack, ⟨rfl, rfl, hinHand⟩, hfolded⟩ := h
  cases hinHand with
  | none => exact .misplaced
  | some htoken =>
    cases htoken with
    | text | comment | endTag => exact .misplaced
    | startTag start =>
      have hadd : (r.startTag start).addMustacheToAttributeValue? (r.mustache m) =
          (start.addMustacheToAttributeValue? m).map r.tag := r.tag_addMustache start.toTag m
      simp only [Assembly.addToValue, hadd]
      cases start.addMustacheToAttributeValue? m with
      | none => exact .misplaced
      | some changed =>
        have htag := MirrorsToken.startTag (r := r) { start with toTag := changed }
        exact .placed ⟨finished, [], hstack, ⟨rfl, rfl, .some htag⟩, hfolded⟩

/-- An expression in a comment is one more of those that are written out in it. -/
theorem addToComment (h : r.MirrorsAssembly folded a a') (m : Mustache) :
    r.MirrorsPlacing (folded ++ [m]) (a.addToComment m) (a'.addToComment (r.mustache m)) := by
  obtain ⟨⟨state, pending, unread⟩, stack⟩ := a
  obtain ⟨⟨state', pending', unread'⟩, stack'⟩ := a'
  obtain ⟨finished, inHand, hstack, ⟨rfl, rfl, hinHand⟩, rfl⟩ := h
  unfold Assembly.addToComment Lexer.foldIntoComment?
  cases hinHand with
  | none =>
    cases state'.isInComment <;> exact .misplaced
  | some htoken =>
    cases htoken with
    | text | startTag | endTag => cases state'.isInComment <;> exact .misplaced
    | comment row =>
      cases state'.isInComment with
      | false => exact .misplaced
      | true =>
        have hcomment := MirrorsToken.comment (r := r)
          (row ++ [.text (Lexer.heldDashes state'), .mustache m])
        have hwritten : ∀ (row : List Fragment) (m : Mustache),
            Fragment.writtenRow (row ++ [.text (Lexer.heldDashes state'), .mustache m]) =
              Fragment.writtenRow row ++ Lexer.heldDashes state' ++ m.text := by
          simp [Fragment.writtenRow, Fragment.written, String.append_assoc]
        simp only [List.map_append, List.map_cons, List.map_nil, fragment, hwritten] at hcomment
        exact .placed ⟨finished, _, hstack, ⟨rfl, rfl, .some hcomment⟩, by
          simp [Fragment.mustachesIn, List.filterMap_cons, Fragment.mustache?]⟩

/-- **An expression goes to the same place as the one that replaces it.** -/
theorem placeMustache (h : r.MirrorsAssembly folded a a') (m : Mustache) :
    r.MirrorsPlacing (folded ++ inComments [(m, a.lexer.state)]) (a.placeMustache m)
      (a'.placeMustache (r.mustache m)) := by
  unfold Assembly.placeMustache
  rw [h.state_eq]
  cases hstate : a.lexer.state with
  | data =>
    obtain ⟨finished, inHand, hstack, hlexer, rfl⟩ := h
    have hpush := hstack.push (mirrorsNode_mustache m)
    exact .placed ⟨_, inHand, hpush, hlexer, by simp [inComments, LexerState.isInComment]⟩
  | tagOpen | endTagOpen | markupDeclaration => exact .misplaced
  | tagName | beforeAttributeName | attributeName | afterAttributeValueQuoted
  | selfClosingStartTag =>
    rw [show inComments [(m, _)] = [] from rfl, List.append_nil]
    exact h.addModifier m
  | beforeAttributeValue | attributeValueDoubleQuoted | attributeValueSingleQuoted
  | attributeValueUnquoted =>
    rw [show inComments [(m, _)] = [] from rfl, List.append_nil]
    exact h.addToValue m
  | commentStart | commentStartDash | comment | commentEndDash | commentEnd =>
    exact h.addToComment m

theorem mergeMustache (h : r.MirrorsAssembly folded a a') (m : Mustache) :
    r.MirrorsOutcome (folded ++ inComments [(m, a.lexer.state)]) (a.mergeMustache m)
      (a'.mergeMustache (r.mustache m)) := by
  have hplacing := h.flushText.placeMustache m
  have hstate := h.flushText.state_eq
  rw [(Assembly.lexer_flushText a).1] at hplacing
  simp only [Assembly.mergeMustache]
  generalize a.flushText.placeMustache m = placed at hplacing
  generalize a'.flushText.placeMustache (r.mustache m) = placed' at hplacing
  cases hplacing with
  | placed h => exact .done h
  | misplaced =>
    rw [hstate]
    exact .failed (.misplacedMustache m _)

/-! ### Markup -/

theorem mirrors_mergeTokens {done : List (List Fragment)} {tokens tokens' : List Token}
    (htokens : r.MirrorsTokens done tokens tokens') :
    ∀ {finished : List (List Fragment)} (a a' : Assembly),
      r.MirrorsStack finished a.stack a'.stack → r.MirrorsLexer inHand a.lexer a'.lexer →
        r.MirrorsOutcome (Fragment.mustachesIn (finished ++ done ++ inHand)) (a.mergeTokens tokens)
          (a'.mergeTokens tokens') := by
  induction htokens with
  | nil =>
    intro finished a a' hstack hlexer
    rw [List.append_nil]
    exact .done ⟨finished, inHand, hstack, hlexer, rfl⟩
  | @cons rows more t t' rest rest' htoken hrest ih =>
    intro finished a a' hstack hlexer
    have hstep := hstack.mergeToken htoken
    unfold Assembly.mergeTokens Assembly.mergeToken
    generalize a.stack.mergeToken t = result at hstep
    generalize a'.stack.mergeToken t' = result' at hstep
    cases hstep with
    | ok hmerged =>
      have hlater := ih { a with stack := _ } { a' with stack := _ } hmerged hlexer
      rw [← List.append_assoc]
      exact hlater
    | error herror => exact .failed herror

/-- **Markup is read in the same way, and put together in the same way.** -/
theorem feed (h : r.MirrorsAssembly folded a a') (hfits : a.lexer.Fits []) (text : String) :
    r.MirrorsOutcome folded (a.feed text) (a'.feed text) := by
  obtain ⟨finished, rows, hstack, ⟨hstate, hunread, hinHand⟩, rfl⟩ := h
  have hextended : r.MirrorsLexer rows (a.lexer.extend text.toList) (a'.lexer.extend text.toList) :=
    ⟨hstate, congrArg (· ++ text.toList) hunread, hinHand⟩
  obtain ⟨done, inHand, tokens', last', hreading, htokens, hlast, hrows⟩ :=
    mirrors_reading (a.lexer.reading_read text.toList) hfits hextended
  obtain ⟨rfl, rfl⟩ := hreading.eq_run
  have hmerge := mirrors_mergeTokens htokens { a with lexer := (a.lexer.read text.toList).2 }
    { a' with lexer := (a'.lexer.read text.toList).2 } hstack hlast
  rw [List.append_assoc, Fragment.mustachesIn_append, hrows, ← Fragment.mustachesIn_append] at hmerge
  exact hmerge

/-! ### Operations -/

theorem enterBlock (h : r.MirrorsAssembly folded a a') (expression : Expression) :
    r.MirrorsOutcome folded (a.enterBlock expression) (a'.enterBlock (r.expression expression)) := by
  have hflushed := h.flushText
  unfold Assembly.enterBlock
  simp only [hflushed.state_eq]
  split
  · exact hflushed.ofStack fun hstack => hstack.openBlock expression
  · exact .failed (.misplacedBlock expression _)

/-- What is half read is described in the same way. -/
theorem halfRead (h : r.MirrorsAssembly folded a a') :
    r.SameOpened (Assembly.halfRead a.lexer) (Assembly.halfRead a'.lexer) := by
  obtain ⟨finished, rows, -, ⟨-, -, hinHand⟩, -⟩ := h
  unfold Assembly.halfRead
  generalize a.lexer.pending = pending at hinHand
  generalize a'.lexer.pending = pending' at hinHand
  cases hinHand with
  | none => exact .bracket
  | some htoken => exact .token htoken.describe_eq

theorem depth_eq (h : r.MirrorsAssembly folded a a') : a'.stack.depth = a.stack.depth := by
  obtain ⟨finished, rows, hstack, -, -⟩ := h
  exact hstack.depth_eq

theorem closeProgram (h : r.MirrorsAssembly folded a a') :
    r.MirrorsOutcome folded a.closeProgram a'.closeProgram := by
  have hflushed := h.flushText
  unfold Assembly.closeProgram
  simp only [hflushed.state_eq, hflushed.depth_eq]
  split
  · exact .done hflushed
  · exact .failed (.unterminatedStructure hflushed.halfRead _)

/-- **Every operation mirrors the one after the replacement.** -/
theorem apply (h : r.MirrorsAssembly folded a a') (hfits : a.lexer.Fits []) (operation : Operation)
    (honce : operation.InverseOnceAt a.stack.blocks) :
    r.MirrorsOutcome (folded ++ inComments (operation.placing a.lexer.state)) (a.apply operation)
      (a'.apply (r.operation operation)) := by
  cases operation with
  | mustache m => exact h.mergeMustache m
  | token t =>
    obtain ⟨finished, inHand, hstack, hlexer, rfl⟩ := h
    obtain ⟨rows, htoken, hnone⟩ := r.mirrorsToken_token t
    have hmerge := (hstack.mergeToken htoken).ofStack hlexer
    simp only [Fragment.mustachesIn_append, hnone, List.append_nil] at hmerge
    rw [Fragment.mustachesIn_append]
    exact hmerge.none_placed
  | feed text => exact (h.feed hfits text).none_placed
  | enterBlock expression => exact (h.enterBlock expression).none_placed
  | flushText => exact (MirrorsOutcome.done h.flushText).none_placed
  | closeProgram => exact h.closeProgram.none_placed
  | startInverse => exact (h.ofStack fun hstack => hstack.startInverse honce).none_placed
  | leaveBlock => exact (h.ofStack fun hstack => hstack.leaveBlock).none_placed

/-- **A run mirrors the one after the replacement**, as far as it goes. -/
theorem run :
    ∀ (operations : List Operation) {folded : List Mustache} {a a' : Assembly},
      r.MirrorsAssembly folded a a' → a.lexer.Fits [] →
        Operation.InverseOnce a.stack.blocks operations →
          r.MirrorsOutcome (folded ++ inComments (a.placings operations)) (a.run operations)
            (a'.run (operations.map r.operation)) := by
  intro operations
  induction operations with
  | nil =>
    intro folded a a' h _ _
    exact (MirrorsOutcome.done h).none_placed
  | cons operation rest ih =>
    intro folded a a' h hfits honce
    have hfirst := h.apply hfits operation honce.1
    have hnext := Assembly.fits_apply hfits operation
    have hblocks := @Assembly.blocks_apply a (a.apply operation).assembly operation
    rw [List.map_cons, Assembly.run, Assembly.run, Assembly.placings, inComments_append,
      ← List.append_assoc]
    generalize a.apply operation = outcome at hfirst hnext hblocks
    generalize a'.apply (r.operation operation) = outcome' at hfirst
    cases hfirst with
    | failed herror => exact .failed herror
    | done hmirrors =>
      have hrest := honce.2
      rw [← hblocks rfl] at hrest
      exact ih hmirrors hnext hrest

end MirrorsAssembly

/-- A program mirrors itself after the replacement. -/
theorem mirrors_program (r : Replacement) (program : Program) (maxDepth : Nat) :
    r.MirrorsOutcome
      (inComments ((Assembly.fresh maxDepth).placings (Statement.operationsOf program)))
      ((Assembly.fresh maxDepth).run (Statement.operationsOf program))
      ((Assembly.fresh maxDepth).run (Statement.operationsOf (r.program program))) := by
  rw [r.operationsOf_program]
  exact (mirrorsAssembly_fresh maxDepth).run _ LexerState.Fits.data
    (Statement.inverseOnce_operationsOf program [])

/-! ### Trees -/

/-- What becomes of a program before and after a replacement: two trees with the same sketch, in
whose comments the same fragments are written out, or the same error.  The expressions in the
comments are `folded`. -/
inductive MirrorsTree (r : Replacement) (folded : List Mustache) :
    Except TemplateError (List Node) → Except TemplateError (List Node) → Prop
  | tree {nodes nodes' : List Node} (hsketch : same.sketchOf nodes' = r.sketchOf nodes)
      (rows : List (List Fragment))
      (hcomments : Inventory.comments.ofRow nodes = rows.map Fragment.writtenRow)
      (hreplaced : Inventory.comments.ofRow nodes' =
        rows.map fun row => Fragment.writtenRow (row.map r.fragment))
      (hfolded : Fragment.mustachesIn rows = folded) :
    MirrorsTree r folded (.ok nodes) (.ok nodes')
  | error {e e' : TemplateError} (h : r.SameError e e') : MirrorsTree r folded (.error e) (.error e')

/-- With nothing open, a stack is its root. -/
theorem MirrorsStack.tree (h : r.MirrorsStack rows s s') (hdepth : ¬ 0 < s.depth) :
    r.MirrorsTree (Fragment.mustachesIn rows) (.ok s.root.reverse) (.ok s'.root.reverse) := by
  have hdepth' : ¬ 0 < s'.depth := by rwa [h.depth_eq]
  have hnodes : s.nodes = [] := by simpa [OpenStack.depth] using hdepth
  have hnodes' : s'.nodes = [] := by simpa [OpenStack.depth] using hdepth'
  have hroot : same.sketchOf s'.root = r.sketchOf s.root := congrArg OpenStack.root h.sketch
  have hcomments := h.comments
  have hreplaced := h.replaced
  simp only [Inventory.ofStack, hnodes, hnodes', List.reverse_nil, List.flatMap_nil,
    List.append_nil] at hcomments hreplaced
  refine .tree ?_ rows hcomments hreplaced rfl
  rw [sketchOf_reverse, sketchOf_reverse, hroot]

theorem MirrorsAssembly.finish (h : r.MirrorsAssembly folded a a') :
    r.MirrorsTree folded a.finish a'.finish := by
  have hflushed := h.flushText
  unfold Assembly.finish
  generalize a.flushText = b at hflushed
  generalize a'.flushText = b' at hflushed
  obtain ⟨finished, inHand, hstack, ⟨-, -, hinHand⟩, rfl⟩ := hflushed
  simp only [hstack.depth_eq]
  generalize b.lexer.pending = pending at hinHand ⊢
  generalize b'.lexer.pending = pending' at hinHand ⊢
  cases hinHand with
  | some htoken => exact .error (.unterminatedStructure (.token htoken.describe_eq) _)
  | none =>
    rw [List.append_nil]
    by_cases hdepth : 0 < b.stack.depth
    · simp only [if_pos hdepth]
      exact .error (.unterminatedStructure hstack.opened _)
    · simp only [if_neg hdepth]
      exact hstack.tree hdepth

/-- What the comments of a tree consist of, whatever the replacement. -/
theorem MirrorsTree.comments {nodes : List Node} {result : Except TemplateError (List Node)}
    (h : r.MirrorsTree folded (.ok nodes) result) :
    ∃ rows : List (List Fragment),
      Inventory.comments.ofRow nodes = rows.map Fragment.writtenRow ∧
        Fragment.mustachesIn rows = folded := by
  cases h with
  | tree hsketch rows hcomments hreplaced hfolded => exact ⟨rows, hcomments, hfolded⟩

theorem MirrorsOutcome.tree {o o' : Outcome} (h : r.MirrorsOutcome folded o o') :
    r.MirrorsTree folded o.tree o'.tree := by
  cases h with
  | done h => exact h.finish
  | failed herror => exact .error herror

end Replacement

/-- **Expressions have no influence on the structure of a tree.**  With others in their places
there is the same tree with the others in it, or the same error.  Comments are the one place
where they are written out, each where the lexer was inside a comment when it came. -/
theorem assemble_replaced (r : Replacement) (program : Program) (maxDepth : Nat) :
    r.MirrorsTree
      (inComments ((Assembly.fresh maxDepth).placings (Statement.operationsOf program)))
      (assemble program maxDepth) (assemble (r.program program) maxDepth) := by
  rw [assemble_eq_tree, assemble_eq_tree]
  exact (r.mirrors_program program maxDepth).tree

/-- The end of a comment that is written in an expression ends no comment. -/
example :
    assemble [.content "<!--a", .mustache ⟨⟨"x", [.string "-->"], []⟩, true⟩, .content "b-->c"] =
      .ok [.comment "a\x7b\x7bx \"-->\"\x7d\x7db", .text "c"] := by
  cbv

end TemplateTree
