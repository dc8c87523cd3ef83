/-
Writing a tree is writing what it was made of.

Tokens and trees have a writer each, and nothing in their definitions says that the two
agree.  They do, whatever the style: a tree is written as the tokens, expressions and
blocks that were put on the stack, in that order.

The invariant is about a stack that is still open.  `OpenStack.markup` writes it as far as
it goes: the root, then the open nodes from the outside in, each with its opening and the
nodes it has so far, but without its end.  A finished node adds its markup to that, an
opening adds itself, and what ends a node adds exactly the end that was missing.
-/
import TemplateTree.Markup
import TemplateTree.Proofs.Grammar
import TemplateTree.Proofs.Names

namespace TemplateTree

namespace OpenNode

/-- An open node as far as it goes. -/
def markup (style : MarkupStyle) : OpenNode → String
  | element tag children => style.startTag tag ++ render style children.reverse
  | block expression children inverse =>
    blockOpening expression.text ++ render style children.reverse ++
      Node.markupOfInverse style (inverse.map List.reverse)

/-- What is written where an open node ends. -/
def ending : OpenNode → String
  | element tag _ => endTagText tag.name
  | block expression _ _ => blockClosing expression.path

/-- An element is open only if it does not end itself, and its name is lower. -/
def Sound : OpenNode → Prop
  | element tag _ => tag.selfClosing = false ∧ IsLower tag.name
  | block _ _ _ => True

/-- The name of a block and whether it went on to its other part. -/
def block? : OpenNode → Option (String × Bool)
  | element _ _ => none
  | block expression _ inverse => some (expression.path, inverse.isSome)

theorem markup_push (style : MarkupStyle) (child : Node) (node : OpenNode) :
    (node.push child).markup style = node.markup style ++ child.markup style := by
  match node with
  | element tag children => simp only [push, markup, render_push, String.append_assoc]
  | block expression children none =>
    simp [push, markup, render_push, Node.markupOfInverse, String.append_assoc]
  | block expression children (some inverse) =>
    have hinverse := render_push style inverse child
    unfold render at hinverse
    simp [push, markup, Node.markupOfInverse, hinverse, String.append_assoc]

/-- A node that is closed has its end in addition. -/
theorem markup_close (style : MarkupStyle) {node : OpenNode} (h : node.Sound) :
    node.close.markup style = node.markup style ++ node.ending := by
  match node, h with
  | element tag children, h =>
    simp [close, Node.markup, markup, ending, h.1, render, String.append_assoc]
  | block expression children inverse, _ =>
    simp [close, Node.markup, markup, ending, render, String.append_assoc]

@[simp] theorem sound_push {node : OpenNode} (child : Node) :
    (node.push child).Sound ↔ node.Sound := by
  unfold push
  split <;> rfl

@[simp] theorem block?_push (node : OpenNode) (child : Node) :
    (node.push child).block? = node.block? := by
  unfold push
  split <;> rfl

end OpenNode

namespace OpenStack

/-- A stack as far as it goes, from the outside in. -/
def markup (style : MarkupStyle) (s : OpenStack) : String :=
  render style s.root.reverse ++ String.join (s.nodes.reverse.map (OpenNode.markup style))

/-- A stack of sound nodes. -/
def Sound (s : OpenStack) : Prop :=
  ∀ node ∈ s.nodes, node.Sound

/-- Of each open block, innermost first, its name and whether it went on to its other
part. -/
def blocks (s : OpenStack) : List (String × Bool) :=
  s.nodes.filterMap OpenNode.block?

theorem markup_push (style : MarkupStyle) (s : OpenStack) (node : Node) :
    (s.push node).markup style = s.markup style ++ node.markup style := by
  unfold push markup
  match s.nodes with
  | [] => simp [render_push]
  | top :: outer => simp [OpenNode.markup_push, String.append_assoc]

theorem sound_empty (maxDepth : Nat) : Sound { maxDepth } := by
  intro node hmem
  cases hmem

theorem sound_push {s : OpenStack} (h : s.Sound) (node : Node) : (s.push node).Sound := by
  unfold push
  match hnodes : s.nodes with
  | [] =>
    intro found hmem
    simp at hmem
  | top :: outer =>
    intro found hmem
    rcases List.mem_cons.mp hmem with rfl | hmem'
    · exact (OpenNode.sound_push node).mpr (h top (by simp [hnodes]))
    · exact h found (by simp [hnodes, hmem'])

theorem blocks_push (s : OpenStack) (node : Node) : (s.push node).blocks = s.blocks := by
  unfold push blocks
  match hnodes : s.nodes with
  | [] => simp
  | top :: outer => simp [List.filterMap_cons]

/-- A stack that goes on from another by what `text` writes, and comes to the open blocks
given. -/
structure Writes (style : MarkupStyle) (s s' : OpenStack) (text : String)
    (blocks : List (String × Bool)) : Prop where
  sound : s'.Sound
  markup : s'.markup style = s.markup style ++ text
  blocks : s'.blocks = blocks

variable (style : MarkupStyle) {s s' : OpenStack}

theorem writes_push (h : s.Sound) (node : Node) :
    Writes style s (s.push node) (node.markup style) s.blocks :=
  ⟨sound_push h node, markup_push style s node, blocks_push s node⟩

theorem writes_openNode (h : s.Sound) {node : OpenNode} (hnode : node.Sound)
    (hopen : s.openNode node = .ok s') :
    Writes style s s' (node.markup style) (node.block?.toList ++ s.blocks) := by
  unfold openNode at hopen
  split at hopen
  · cases hopen
  · cases hopen
    refine ⟨?_, ?_, ?_⟩
    · intro found hmem
      rcases List.mem_cons.mp hmem with rfl | hmem'
      · exact hnode
      · exact h found hmem'
    · simp [markup, String.append_assoc]
    · unfold OpenStack.blocks
      rw [List.filterMap_cons]
      split <;> simp_all

/-- What ends the innermost node writes its end. -/
theorem writes_close (h : s.Sound) {top : OpenNode} {outer : List OpenNode}
    (hnodes : s.nodes = top :: outer) :
    Writes style s (push { s with nodes := outer } top.close) top.ending
      (outer.filterMap OpenNode.block?) := by
  have hrest : Sound { s with nodes := outer } := fun found hmem => h found (by simp [hnodes, hmem])
  refine ⟨sound_push hrest _, ?_, blocks_push _ _⟩
  rw [markup_push, OpenNode.markup_close style (h top (by simp [hnodes]))]
  simp [markup, hnodes, String.append_assoc]

theorem writes_closeElement (h : s.Sound) {name : String} (hname : IsLower name)
    (hclose : s.closeElement name = .ok s') :
    Writes style s s' (endTagText name) s.blocks := by
  unfold closeElement at hclose
  split at hclose
  · rename_i tag children outer hnodes
    split at hclose
    · rename_i hsame
      cases hclose
      have hsound : tag.selfClosing = false ∧ IsLower tag.name :=
        h (.element tag children) (by simp [hnodes])
      have heq : tag.name = name := hsound.2.eq_of_sameIgnoringCase hname hsame
      have hwrites := writes_close style h hnodes
      rw [OpenNode.ending, heq] at hwrites
      have hblocks : s.blocks = outer.filterMap OpenNode.block? := by
        rw [blocks, hnodes, List.filterMap_cons_none rfl]
      rw [hblocks]
      exact hwrites
    · cases hclose
  · cases hclose

theorem writes_openElement (h : s.Sound) {tag : StartTag} (hname : IsLower tag.name)
    (hopen : s.openElement tag = .ok s') :
    Writes style s s' (style.startTag tag) s.blocks := by
  have hlower : asciiLower tag.name = tag.name := hname
  unfold openElement at hopen
  simp only [hlower] at hopen
  split at hopen
  · rename_i hself
    cases hopen
    have hwrites := writes_push style h (.element tag [])
    rw [Node.markup, if_pos hself] at hwrites
    exact hwrites
  · rename_i hself
    have hnode : (OpenNode.element tag []).Sound := ⟨by simpa using hself, hname⟩
    have hwrites := writes_openNode style h hnode hopen
    simpa [OpenNode.markup, OpenNode.block?] using hwrites

/-- **A token on the stack writes itself.** -/
theorem writes_mergeToken (h : s.Sound) {token : Token} (hname : token.HasLowerName)
    (hmerge : s.mergeToken token = .ok s') :
    Writes style s s' (token.markup style) s.blocks := by
  cases token with
  | text content =>
    cases hmerge
    exact writes_push style h _
  | comment content =>
    cases hmerge
    exact writes_push style h _
  | startTag tag => exact writes_openElement style h (hname tag.toTag rfl) hmerge
  | endTag tag => exact writes_closeElement style h (hname tag rfl) hmerge

theorem writes_openBlock (h : s.Sound) {expression : Expression}
    (hopen : s.openBlock expression = .ok s') :
    Writes style s s' (blockOpening expression.text) ((expression.path, false) :: s.blocks) := by
  have hnode : (OpenNode.block expression [] none).Sound := trivial
  have hwrites := writes_openNode style h hnode hopen
  simpa [OpenNode.markup, OpenNode.block?, Node.markupOfInverse] using hwrites

/-- The step to the other part of a block writes itself, unless it forgets one. -/
theorem writes_startInverse (h : s.Sound) (honce : ∀ block ∈ s.blocks.head?, block.2 = false)
    (hstart : s.startInverse = .ok s') :
    Writes style s s' elseDirective (s.blocks.modifyHead fun block => (block.1, true)) := by
  unfold startInverse at hstart
  split at hstart
  · rename_i expression children inverse outer hnodes
    cases hstart
    have hinverse : inverse = none := by
      simpa [blocks, hnodes, OpenNode.block?] using honce
    refine ⟨?_, ?_, ?_⟩
    · intro found hmem
      rcases List.mem_cons.mp hmem with rfl | hmem'
      · trivial
      · exact h found (by simp [hnodes, hmem'])
    · simp [markup, hnodes, hinverse, OpenNode.markup, Node.markupOfInverse, Node.markupOfRow,
        String.append_assoc]
    · simp [blocks, hnodes, OpenNode.block?]
  · cases hstart

theorem writes_leaveBlock (h : s.Sound) (hleave : s.leaveBlock = .ok s') :
    ∃ block ∈ s.blocks.head?, Writes style s s' (blockClosing block.1) s.blocks.tail := by
  unfold leaveBlock at hleave
  split at hleave
  · rename_i expression children inverse outer hnodes
    cases hleave
    have hblocks : s.blocks = (expression.path, inverse.isSome) :: outer.filterMap OpenNode.block? := by
      simp [blocks, hnodes, OpenNode.block?]
    rw [hblocks]
    exact ⟨_, rfl, writes_close style h hnodes⟩
  · cases hleave

end OpenStack

/-! ### Operations

Where a text is in the making, what an operation writes depends on it.  Operations on
whole things do not, and neither do they touch the lexer. -/

namespace Operation

/-- An operation that brings something whole: a token under a lower name, an expression,
or a step of a block. -/
def Whole : Operation → Prop
  | .token t => t.HasLowerName
  | .mustache _ | .enterBlock _ | .startInverse | .leaveBlock => True
  | .feed _ | .flushText | .closeProgram => False

/-- The open blocks after an operation, innermost first. -/
def after (blocks : List (String × Bool)) : Operation → List (String × Bool)
  | .enterBlock expression => (expression.path, false) :: blocks
  | .startInverse => blocks.modifyHead fun block => (block.1, true)
  | .leaveBlock => blocks.tail
  | _ => blocks

/-- What an operation writes; the end of a block has the name of the innermost one. -/
def markup (style : MarkupStyle) (blocks : List (String × Bool)) : Operation → String
  | .token t => t.markup style
  | .mustache m => m.text
  | .enterBlock expression => blockOpening expression.text
  | .startInverse => elseDirective
  | .leaveBlock => String.join (blocks.head?.toList.map fun block => blockClosing block.1)
  | .feed _ | .flushText | .closeProgram => ""

/-- What operations write, one after another. -/
def written (style : MarkupStyle) : List (String × Bool) → List Operation → String
  | _, [] => ""
  | blocks, operation :: rest =>
    operation.markup style blocks ++ written style (operation.after blocks) rest

/-- Does the operation begin the other part of a block that does not have it yet, if of
any? -/
def InverseOnceAt (blocks : List (String × Bool)) : Operation → Prop
  | .startInverse => ∀ block ∈ blocks.head?, block.2 = false
  | _ => True

/-- Operations by which no block goes on to its other part twice. -/
def InverseOnce : List (String × Bool) → List Operation → Prop
  | _, [] => True
  | blocks, operation :: rest =>
    operation.InverseOnceAt blocks ∧ InverseOnce (operation.after blocks) rest

end Operation

namespace Assembly

theorem takeText_of_pending {l : Lexer} (h : l.pending = none) : l.takeText = (none, l) := by
  unfold Lexer.takeText
  rw [h]
  cases l.state <;> rfl

theorem flushText_of_pending {a : Assembly} (h : a.lexer.pending = none) : a.flushText = a := by
  rw [flushText, takeText_of_pending h]

theorem stack_of_ofStack {a a' : Assembly} {step : Step OpenStack}
    (h : Outcome.ofStack a step = ⟨a', none⟩) :
    ∃ stack, step = .ok stack ∧ a' = { a with stack } := by
  cases step with
  | ok stack =>
    cases h
    exact ⟨stack, rfl, rfl⟩
  | error e left => cases h

variable (style : MarkupStyle)

/-- **A whole operation writes itself**, and the lexer stays as it was. -/
theorem writes_apply {a a' : Assembly} (hdata : a.lexer.state = .data)
    (hpending : a.lexer.pending = none) (hsound : a.stack.Sound) {operation : Operation}
    (hwhole : operation.Whole) (honce : operation.InverseOnceAt a.stack.blocks)
    (h : a.apply operation = ⟨a', none⟩) :
    a'.lexer = a.lexer ∧
      OpenStack.Writes style a.stack a'.stack (operation.markup style a.stack.blocks)
        (operation.after a.stack.blocks) := by
  cases operation with
  | feed content => exact hwhole.elim
  | flushText => exact hwhole.elim
  | closeProgram => exact hwhole.elim
  | token token =>
    obtain ⟨stack, hmerge, rfl⟩ := stack_of_ofStack h
    exact ⟨rfl, OpenStack.writes_mergeToken style hsound hwhole hmerge⟩
  | mustache m =>
    simp only [apply, mergeMustache, flushText_of_pending hpending, placeMustache, hdata,
      Outcome.mk.injEq, and_true] at h
    rw [← h]
    exact ⟨rfl, OpenStack.writes_push style hsound (.mustache m)⟩
  | enterBlock expression =>
    simp only [apply, enterBlock, flushText_of_pending hpending, hdata, if_true] at h
    obtain ⟨stack, hopen, rfl⟩ := stack_of_ofStack h
    exact ⟨rfl, OpenStack.writes_openBlock style hsound hopen⟩
  | startInverse =>
    obtain ⟨stack, hstart, rfl⟩ := stack_of_ofStack h
    exact ⟨rfl, OpenStack.writes_startInverse style hsound honce hstart⟩
  | leaveBlock =>
    obtain ⟨stack, hleave, rfl⟩ := stack_of_ofStack h
    obtain ⟨block, hblock, hwrites⟩ := OpenStack.writes_leaveBlock style hsound hleave
    refine ⟨rfl, ?_⟩
    rw [Operation.markup, Operation.after, Option.mem_def.mp hblock]
    simpa using hwrites

/-- **A run writes what its operations write**, in their order. -/
theorem markup_run :
    ∀ (operations : List Operation) {a a' : Assembly}, a.lexer.state = .data →
      a.lexer.pending = none → a.stack.Sound → (∀ operation ∈ operations, operation.Whole) →
      Operation.InverseOnce a.stack.blocks operations → a.run operations = ⟨a', none⟩ →
        a'.lexer = a.lexer ∧ a'.stack.markup style =
          a.stack.markup style ++ Operation.written style a.stack.blocks operations := by
  intro operations
  induction operations with
  | nil =>
    intro a a' _ _ _ _ _ h
    cases h
    exact ⟨rfl, by simp [Operation.written]⟩
  | cons operation rest ih =>
    intro a a' hdata hpending hsound hwhole honce h
    obtain ⟨next, happly, hlater⟩ := Outcome.done_of_andThen h
    obtain ⟨hlexer, hwrites⟩ := writes_apply style hdata hpending hsound
      (hwhole operation (by simp)) honce.1 happly
    have hrest : Operation.InverseOnce next.stack.blocks rest := by
      rw [hwrites.blocks]
      exact honce.2
    obtain ⟨hlexer', hmarkup⟩ := ih (hlexer ▸ hdata) (hlexer ▸ hpending) hwrites.sound
      (fun later hmem => hwhole later (by simp [hmem])) hrest hlater
    refine ⟨hlexer'.trans hlexer, ?_⟩
    rw [hmarkup, hwrites.markup, hwrites.blocks, Operation.written, String.append_assoc]

/-- Tokens write themselves. -/
theorem markup_mergeTokens :
    ∀ (tokens : List Token) {a a' : Assembly}, a.stack.Sound →
      (∀ token ∈ tokens, token.HasLowerName) → a.mergeTokens tokens = ⟨a', none⟩ →
        a'.stack.Sound ∧
          a'.stack.markup style = a.stack.markup style ++ markupOfTokens style tokens := by
  intro tokens
  induction tokens with
  | nil =>
    intro a a' hsound _ h
    cases h
    exact ⟨hsound, by simp [markupOfTokens]⟩
  | cons token rest ih =>
    intro a a' hsound hlower h
    obtain ⟨next, hmerge, hlater⟩ := Outcome.done_of_andThen h
    obtain ⟨stack, hstack, rfl⟩ := stack_of_ofStack hmerge
    have hwrites :=
      OpenStack.writes_mergeToken style hsound (hlower token (by simp)) hstack
    obtain ⟨hsound', hmarkup⟩ :=
      ih hwrites.sound (fun later hmem => hlower later (by simp [hmem])) hlater
    refine ⟨hsound', ?_⟩
    rw [hmarkup, hwrites.markup]
    simp [markupOfTokens, String.append_assoc]

theorem markup_flushText (a : Assembly) :
    a.flushText.stack.markup style =
      a.stack.markup style ++ String.join a.lexer.takeText.1.toList := by
  unfold flushText
  split
  · rename_i content lexer htake
    simp [htake, OpenStack.markup_push, Node.markup]
  · rename_i lexer htake
    simp [htake]

/-- A tree is its stack once nothing is open, and the text that was left over. -/
theorem render_finish {a : Assembly} {nodes : List Node} (h : a.finish = .ok nodes) :
    render style nodes = a.stack.markup style ++ String.join a.lexer.takeText.1.toList := by
  rw [← markup_flushText]
  simp only [finish] at h
  split at h
  · cases h
  · split at h
    · cases h
    · rename_i hdepth
      cases h
      have hnodes : a.flushText.stack.nodes = [] := by
        simpa [OpenStack.depth, List.length_eq_zero_iff] using hdepth
      simp [OpenStack.markup, hnodes]

end Assembly

/-! ### Sources without directives -/

/-- A source in which no directive opens is one text, unless it is empty. -/
theorem parseDirectives_of_plain {source : String} (h : ¬ openBraces.toList <:+: source.toList)
    (limit : Nat) : parseDirectives source limit = .ok (Statement.pushText source []) := by
  have hcut : Cut.ofSource source = ⟨[], source.toList, false, none⟩ :=
    Cut.ofText_of_plain .start false h
  rw [parseDirectives, hcut]
  refine Cut.program_eq_ok_iff.mpr ⟨{}, rfl, rfl, rfl, ?_⟩
  simp [Builder.addText, Builder.modify, Cut.text, Statement.pushText]
  split <;> rfl

theorem markup_tokenize (style : MarkupStyle) (source : String) :
    markupOfTokens style (Lexer.tokenize source) =
      markupOfTokens style (Lexer.read {} source.toList).1 ++
        String.join (Lexer.takeText (Lexer.read {} source.toList).2).1.toList := by
  rw [Lexer.tokenize, Lexer.feed_eq_read]
  simp only
  split
  · rename_i content hcontent
    simp [hcontent, markupOfTokens, Token.markup]
  · rename_i hnone
    simp [hnone]

/-- The tree of a text on its own is written as its tokens are, the last of them being
what the lexer has left at the end. -/
theorem render_tree_feed (style : MarkupStyle) {source : String} {maxDepth : Nat}
    {nodes : List Node} (h : ((Assembly.fresh maxDepth).feed source).tree = .ok nodes) :
    render style nodes = markupOfTokens style (Lexer.tokenize source) := by
  rw [Assembly.feed_eq_mergeTokens] at h
  match hmerge : (Assembly.fresh maxDepth).mergeTokens (Lexer.read {} source.toList).1 with
  | ⟨a, some e⟩ =>
    simp only [Assembly.fresh] at h hmerge
    rw [hmerge] at h
    cases h
  | ⟨a, none⟩ =>
    simp only [Assembly.fresh] at h hmerge
    rw [hmerge] at h
    have hlower := (@Lexer.lower_read {} allLower_none source.toList).2
    have hmarkup := (Assembly.markup_mergeTokens style _ (OpenStack.sound_empty maxDepth) hlower
      hmerge).2
    rw [Assembly.render_finish style h, markup_tokenize]
    simp only [Outcome.withLexer]
    rw [hmarkup]
    simp [OpenStack.markup]

/-- A source in which no directive opens is written as its tokens are. -/
theorem render_of_plain (style : MarkupStyle) {source : String} {limit maxDepth : Nat}
    {nodes : List Node} (hplain : ¬ openBraces.toList <:+: source.toList)
    (h : preprocess source limit maxDepth = .ok nodes) :
    render style nodes = markupOfTokens style (Lexer.tokenize source) := by
  rw [preprocess, parseDirectives_of_plain hplain] at h
  refine @render_tree_feed style source maxDepth nodes ?_
  rw [← h]
  simp only [assemble_eq_tree]
  by_cases hempty : source = ""
  · rw [hempty, Statement.pushText_empty, Assembly.feed_eq_mergeTokens]
    have hread : Lexer.read {} "".toList = ([], {}) := by
      have hstop : Lexer.step? {} = none := rfl
      simp [Lexer.read, Lexer.run_of_stop hstop]
    simp only [Assembly.fresh, hread]
    rfl
  · simp [Statement.pushText, hempty, Statement.operationsOf, Statement.operations,
      Assembly.run_singleton, Assembly.apply]

/-- **Writing a tree is writing what it was made of**, in every style.  A fresh stack that
took tokens under lower names, expressions and steps of blocks, no block going on to its
other part twice, is in the end a tree that is written as those were, one after another.
So a source without directives is written as the tokens in it. -/
theorem render_eq_written (style : MarkupStyle) :
    (∀ (maxDepth : Nat) (lexer : Lexer) (operations : List Operation) (a : Assembly)
        (nodes : List Node),
      lexer.state = .data → lexer.pending = none →
      (∀ operation ∈ operations, operation.Whole) → Operation.InverseOnce [] operations →
      Assembly.run ⟨lexer, { maxDepth }⟩ operations = ⟨a, none⟩ → a.finish = .ok nodes →
        render style nodes = Operation.written style [] operations) ∧
    (∀ (source : String) (limit maxDepth : Nat) (nodes : List Node),
      ¬ openBraces.toList <:+: source.toList → preprocess source limit maxDepth = .ok nodes →
        render style nodes = markupOfTokens style (Lexer.tokenize source)) := by
  refine ⟨?_, ?_⟩
  · intro maxDepth lexer operations a nodes hdata hpending hwhole honce hrun hfinish
    obtain ⟨hlexer, hmarkup⟩ := @Assembly.markup_run style operations ⟨lexer, { maxDepth }⟩ a hdata
      hpending (OpenStack.sound_empty maxDepth) hwhole honce hrun
    rw [Assembly.render_finish style hfinish, hmarkup, hlexer,
      Assembly.takeText_of_pending hpending]
    simp [OpenStack.markup, OpenStack.blocks]
  · intro source limit maxDepth nodes hplain h
    exact render_of_plain style hplain h

/-- A block with both of its parts, the first of them an element; and a source with a
bracket that opens nothing, after which the text goes on. -/
theorem render_eq_written_of_block :
    (∃ (operations : List Operation) (a : Assembly) (nodes : List Node),
      operations =
          [.enterBlock ⟨"if", [.path "x"], []⟩, .token (.startTag (.named "p")),
            .token (.endTag ⟨"p", []⟩), .startInverse, .mustache ⟨⟨"y", [], []⟩, true⟩,
            .leaveBlock] ∧
        Assembly.run ⟨{}, ⟨2, [], []⟩⟩ operations = ⟨a, none⟩ ∧ a.finish = .ok nodes ∧
        render .standard nodes = Operation.written .standard [] operations) ∧
    (∃ nodes, preprocess "a<1<br/>" 1 1 = .ok nodes ∧
      render .standard nodes = markupOfTokens .standard (Lexer.tokenize "a<1<br/>")) := by
  refine ⟨⟨_, _, _, rfl, rfl, rfl, ?_⟩, ?_⟩
  · refine (render_eq_written .standard).1 2 {} _ _ _ rfl rfl ?_ ?_ rfl rfl
    · intro operation hmem
      simp only [List.mem_cons, List.not_mem_nil, or_false] at hmem
      rcases hmem with rfl | rfl | rfl | rfl | rfl | rfl
      · trivial
      · intro tag htag
        rw [← Option.mem_some_iff.mp htag]
        exact isLower_asciiLower "p"
      · intro tag htag
        rw [← Option.mem_some_iff.mp htag]
        exact isLower_asciiLower "p"
      · trivial
      · trivial
      · trivial
    · simp [Operation.InverseOnce, Operation.InverseOnceAt, Operation.after]
  · have h : preprocess "a<1<br/>" 1 1 =
        .ok [.text "a<1", .element ⟨⟨"br", []⟩, true, []⟩ []] := by
      cbv
    have hplain : ¬ openBraces.toList <:+: "a<1<br/>".toList := by
      rw [← splitWhere_startsWith_eq_none_iff]
      cbv
    exact ⟨_, h, (render_eq_written .standard).2 _ 1 1 _ hplain h⟩

end TemplateTree
