/-
One stack above another.

Inside a block, a program is put together on a stack with the block in it, and all that is
outside of the block.  None of that makes a difference to it.  If `base` is a stack on which
no element can end, whatever is done to a stack is also done to that stack above `base`: the
nodes without an open one around them go to the innermost node of `base`, and an error
counts the nodes of `base` in.

The exception is what ends a part of a block or a block, which would be a step of `base` if
nothing is open above it.  A program has only such steps in it as belong to its own blocks,
and it leaves as many blocks open as there were.
-/
import TemplateTree.Proofs.WellFormed

namespace TemplateTree

/-! ### Open blocks -/

namespace OpenStack

variable {s s' : OpenStack}

theorem blocks_openNode {node : OpenNode} (h : s.openNode node = .ok s') :
    s'.blocks = node.block?.toList ++ s.blocks := by
  unfold openNode at h
  split at h
  · cases h
  · cases h
    unfold blocks
    rw [List.filterMap_cons]
    split <;> simp_all

/-- A token opens no block and ends none. -/
theorem blocks_mergeToken {token : Token} (h : s.mergeToken token = .ok s') :
    s'.blocks = s.blocks := by
  cases token with
  | text content | comment content =>
    cases h
    exact blocks_push s _
  | startTag tag =>
    simp only [mergeToken, openElement] at h
    split at h
    · cases h
      exact blocks_push s _
    · exact blocks_openNode h
  | endTag tag =>
    simp only [mergeToken, closeElement] at h
    split at h
    · rename_i start children outer hnodes
      split at h
      · cases h
        rw [blocks_push, blocks, blocks, hnodes, List.filterMap_cons_none rfl]
      · cases h
    · cases h

theorem blocks_startInverse (h : s.startInverse = .ok s') :
    s'.blocks = Operation.startInverse.after s.blocks := by
  unfold startInverse at h
  split at h
  · rename_i expression children inverse outer hnodes
    cases h
    simp [blocks, hnodes, OpenNode.block?, Operation.after]
  · cases h

theorem blocks_leaveBlock (h : s.leaveBlock = .ok s') :
    s'.blocks = Operation.leaveBlock.after s.blocks := by
  unfold leaveBlock at h
  split at h
  · rename_i expression children inverse outer hnodes
    cases h
    rw [blocks_push]
    simp [blocks, hnodes, OpenNode.block?, Operation.after]
  · cases h

end OpenStack

/-! ### What only blocks change -/

/-- Is this a step of a block? -/
def Operation.isBlockStep : Operation → Bool
  | .enterBlock _ | .startInverse | .leaveBlock => true
  | _ => false

/-- Something about a stack that is known without the markup between the blocks: it changes with
the steps of blocks only, as `after` says. -/
structure OpenStack.BlockView {α : Type} (view : OpenStack → α) (after : Operation → α → α) :
    Prop where
  token : ∀ {s s' : OpenStack} {t : Token}, s.mergeToken t = .ok s' → view s' = view s
  mustache : ∀ (s : OpenStack) (m : Mustache), view (s.push (.mustache m)) = view s
  openBlock : ∀ {s s' : OpenStack} {expression : Expression},
    s.openBlock expression = .ok s' → view s' = after (.enterBlock expression) (view s)
  startInverse : ∀ {s s' : OpenStack}, s.startInverse = .ok s' → view s' = after .startInverse (view s)
  leaveBlock : ∀ {s s' : OpenStack}, s.leaveBlock = .ok s' → view s' = after .leaveBlock (view s)
  other : ∀ {operation : Operation} (v : α), operation.isBlockStep = false → after operation v = v

namespace OpenStack.BlockView

open Assembly

variable {α : Type} {view : OpenStack → α} {after : Operation → α → α} {a b : Assembly}

theorem mergeTokens (h : BlockView view after) (tokens : List Token) :
    ∀ a : Assembly, view (a.mergeTokens tokens).assembly.stack = view a.stack := by
  induction tokens with
  | nil => intro a; rfl
  | cons token rest ih =>
    intro a
    have hfirst : view (a.mergeToken token).assembly.stack = view a.stack := by
      unfold Assembly.mergeToken
      cases hmerge : a.stack.mergeToken token with
      | ok stack => exact h.token hmerge
      | error e left => exact congrArg view (a.stack.keeps_mergeToken token e left hmerge)
    rw [Assembly.mergeTokens, Outcome.andThen]
    split
    · exact (ih _).trans hfirst
    · exact hfirst

theorem flushText (h : BlockView view after) (a : Assembly) :
    view a.flushText.stack = view a.stack := by
  unfold Assembly.flushText
  split
  · exact h.token (t := .text _) rfl
  · rfl

theorem places (h : BlockView view after) {m : Mustache} (hplaces : a.Places m b) :
    view b.stack = view a.stack := by
  cases hplaces with
  | node hstate => exact h.mustache _ _
  | _ => rfl

/-- **What only blocks change, is changed by an operation as its step says.** -/
theorem apply (h : BlockView view after) {operation : Operation}
    (happly : a.apply operation = ⟨b, none⟩) : view b.stack = after operation (view a.stack) := by
  cases operation with
  | feed text =>
    have hview := h.mergeTokens (a.lexer.read text.toList).1 a
    rw [Assembly.apply, feed_eq_mergeTokens] at happly
    have hb := congrArg Outcome.assembly happly
    rw [← show _ = b from hb, h.other _ rfl]
    exact hview
  | token t =>
    obtain ⟨stack, hmerge, rfl⟩ := stack_of_ofStack happly
    rw [h.other _ rfl]
    exact h.token hmerge
  | mustache m =>
    rw [Assembly.apply, mergeMustache] at happly
    split at happly
    · rename_i placed hplace
      cases happly
      rw [h.other _ rfl]
      exact (h.places (places_of_placeMustache hplace)).trans (h.flushText a)
    · cases happly
  | enterBlock expression =>
    rw [Assembly.apply, enterBlock] at happly
    split at happly
    · obtain ⟨stack, hopen, rfl⟩ := stack_of_ofStack happly
      have hview := h.openBlock hopen
      rw [h.flushText] at hview
      exact hview
    · cases happly
  | flushText =>
    cases happly
    rw [h.other _ rfl]
    exact h.flushText a
  | closeProgram =>
    rw [Assembly.apply, closeProgram] at happly
    split at happly
    · cases happly
      rw [h.other _ rfl]
      exact h.flushText a
    · cases happly
  | startInverse =>
    obtain ⟨stack, hstart, rfl⟩ := stack_of_ofStack happly
    exact h.startInverse hstart
  | leaveBlock =>
    obtain ⟨stack, hleave, rfl⟩ := stack_of_ofStack happly
    exact h.leaveBlock hleave

end OpenStack.BlockView

theorem OpenStack.blockView_blocks :
    BlockView blocks fun operation blocks => operation.after blocks where
  token := blocks_mergeToken
  mustache s m := blocks_push s (.mustache m)
  openBlock := blocks_openNode
  startInverse := blocks_startInverse
  leaveBlock := blocks_leaveBlock
  other {operation} blocks hother := by
    cases operation <;> first | rfl | cases hother

namespace Assembly

variable {a b : Assembly}

theorem blocks_flushText (a : Assembly) : a.flushText.stack.blocks = a.stack.blocks :=
  OpenStack.blockView_blocks.flushText a

/-- **The open blocks are known without the markup between them.** -/
theorem blocks_apply {operation : Operation} (h : a.apply operation = ⟨b, none⟩) :
    b.stack.blocks = operation.after a.stack.blocks :=
  OpenStack.blockView_blocks.apply h

end Assembly

namespace Operation

/-- Is this a step of a block that is open? -/
def endsPart : Operation → Bool
  | .startInverse | .leaveBlock => true
  | _ => false

/-- The open blocks after an operation, if it is no step of a block where there is none. -/
def blocksAfter? (blocks : List (String × Bool)) (operation : Operation) :
    Option (List (String × Bool)) :=
  if operation.endsPart = true ∧ blocks = [] then none else some (operation.after blocks)

end Operation

namespace Statement

mutual

theorem blocksAfter?_operations (statement : Statement) (blocks : List (String × Bool)) :
    statement.operations.foldlM Operation.blocksAfter? blocks = some blocks := by
  cases statement with
  | content text => rfl
  | mustache m => rfl
  | block expression body inverse =>
    have hopen : Operation.blocksAfter? blocks (.enterBlock expression) =
        some ((expression.path, false) :: blocks) := rfl
    rw [operations, List.foldlM_cons, hopen]
    simp only [Option.bind_eq_bind, Option.bind_some, List.foldlM_append, List.foldlM_cons,
      blocksAfter?_operationsOf body]
    obtain ⟨begun, hinverse⟩ := blocksAfter?_inverseOperations inverse expression.path blocks
    simp [hinverse, Operation.blocksAfter?, Operation.after]

/-- **A program leaves the open blocks as they were**, and its steps belong to its own. -/
theorem blocksAfter?_operationsOf (program : List Statement) (blocks : List (String × Bool)) :
    (operationsOf program).foldlM Operation.blocksAfter? blocks = some blocks := by
  cases program with
  | nil => rfl
  | cons statement rest =>
    rw [operationsOf, List.foldlM_append, blocksAfter?_operations statement blocks]
    exact blocksAfter?_operationsOf rest blocks

theorem blocksAfter?_inverseOperations (inverse : Option (List Statement)) (name : String)
    (blocks : List (String × Bool)) :
    ∃ begun, (inverseOperations inverse).foldlM Operation.blocksAfter? ((name, false) :: blocks) =
      some ((name, begun) :: blocks) := by
  cases inverse with
  | none => exact ⟨false, rfl⟩
  | some program =>
    have hstart : Operation.blocksAfter? ((name, false) :: blocks) .startInverse =
        some ((name, true) :: blocks) := rfl
    refine ⟨true, ?_⟩
    rw [inverseOperations, List.foldlM_cons, hstart]
    simp only [Option.bind_eq_bind, Option.bind_some, List.foldlM_append,
      blocksAfter?_operationsOf program]
    rfl

end

end Statement

/-! ### One stack above another -/

namespace OpenNode

theorem opened_push (node : OpenNode) (child : Node) : (node.push child).opened = node.opened := by
  unfold push
  split <;> rfl

end OpenNode

namespace OpenStack

/-- A stack on which no element can end, and where there is room for as many as `limit` open
nodes. -/
structure Supports (base : OpenStack) (limit : Nat) : Prop where
  room : base.maxDepth = limit + base.depth
  closed : ∀ top ∈ base.nodes.head?, top.block?.isSome = true

/-- One stack above another.  The nodes without an open one around them belong to the
innermost node below. -/
def above (s base : OpenStack) : OpenStack :=
  { base.pushRow s.root.reverse with nodes := s.nodes ++ (base.pushRow s.root.reverse).nodes }

theorem opened_push (s : OpenStack) (node : Node) : (s.push node).opened = s.opened := by
  obtain ⟨maxDepth, root, nodes⟩ := s
  cases nodes with
  | nil => rfl
  | cons top outer => exact top.opened_push node

theorem Supports.push {base : OpenStack} {limit : Nat} (h : base.Supports limit) (node : Node) :
    (base.push node).Supports limit := by
  refine ⟨by rw [maxDepth_push, depth_push]; exact h.room, ?_⟩
  obtain ⟨maxDepth, root, nodes⟩ := base
  cases nodes with
  | nil => simp [OpenStack.push]
  | cons top outer => simpa [OpenStack.push] using h.closed

/-- A row below is below all the same, whatever it has in it. -/
theorem Supports.pushRow {limit : Nat} :
    ∀ (nodes : List Node) {base : OpenStack}, base.Supports limit →
      (base.pushRow nodes).Supports limit ∧ (base.pushRow nodes).depth = base.depth ∧
        (base.pushRow nodes).opened = base.opened := by
  intro nodes
  induction nodes with
  | nil => intro base h; exact ⟨h, rfl, rfl⟩
  | cons node rest ih =>
    intro base h
    obtain ⟨hsupports, hdepth, hopened⟩ := ih (h.push node)
    exact ⟨hsupports, hdepth.trans (depth_push base node), hopened.trans (opened_push base node)⟩

/-- A row grows above as it grows on its own. -/
theorem pushRow_push (base : OpenStack) (row : List Node) (node : Node) :
    base.pushRow (Node.push row node).reverse = (base.pushRow row.reverse).push node := by
  unfold Node.push
  split
  · rename_i last earlier content
    simp [pushRow, List.foldl_append, push_text_text]
  · simp [pushRow, List.foldl_append]

end OpenStack

/-- What is open, as seen from above: instead of the whole, it is the innermost node below. -/
def Opened.above (base : OpenStack) : Opened → Opened
  | fragment => base.opened
  | opened => opened

/-- An error above another stack counts the nodes below in. -/
def TemplateError.above (base : OpenStack) : TemplateError → TemplateError
  | unmatchedCloseTag expected found depth => .unmatchedCloseTag expected found (depth + base.depth)
  | unexpectedCloseTag found opened depth =>
    .unexpectedCloseTag found (opened.above base) (depth + base.depth)
  | unterminatedStructure opened depth =>
    .unterminatedStructure (opened.above base) (depth + base.depth)
  | misplacedDirective text state => .misplacedDirective text state
  | nestingTooDeep limit => .nestingTooDeep (limit + base.depth)
  | directive error => .directive error

namespace OpenStack

/-- A step on a stack, above another stack. -/
def stepAbove (base : OpenStack) : Step OpenStack → Step OpenStack
  | .ok s => .ok (s.above base)
  | .error e s => .error (e.above base) (s.above base)

variable {base s : OpenStack} {limit : Nat}

theorem nodes_above_cons (maxDepth : Nat) (root : List Node) (top : OpenNode)
    (outer : List OpenNode) (base : OpenStack) :
    (above ⟨maxDepth, root, top :: outer⟩ base).nodes =
      top :: (above ⟨maxDepth, root, outer⟩ base).nodes := rfl

theorem above_push (s base : OpenStack) (node : Node) :
    (s.push node).above base = (s.above base).push node := by
  obtain ⟨maxDepth, root, nodes⟩ := s
  cases nodes with
  | nil =>
    have hpush := pushRow_push base root node
    simp only [above, push, hpush, List.nil_append]
  | cons top outer => rfl

theorem depth_above (hbase : base.Supports limit) : (s.above base).depth = s.depth + base.depth := by
  obtain ⟨-, hdepth, -⟩ := hbase.pushRow s.root.reverse
  rw [← hdepth]
  simp [above, depth]

theorem maxDepth_above (hbase : base.Supports limit) :
    (s.above base).maxDepth = limit + base.depth := by
  obtain ⟨hsupports, hdepth, -⟩ := hbase.pushRow s.root.reverse
  rw [← hdepth]
  exact hsupports.room

theorem opened_above (hbase : base.Supports limit) :
    (s.above base).opened = s.opened.above base := by
  obtain ⟨maxDepth, root, nodes⟩ := s
  cases nodes with
  | nil => exact (hbase.pushRow root.reverse).2.2
  | cons top outer => cases top <;> rfl

theorem openNode_above (hbase : base.Supports limit) (hlimit : s.maxDepth = limit)
    (node : OpenNode) : (s.above base).openNode node = stepAbove base (s.openNode node) := by
  have hmax : (s.above base).maxDepth = s.maxDepth + base.depth := by
    rw [maxDepth_above hbase, hlimit]
  have hdepth : (s.above base).depth = s.depth + base.depth := depth_above hbase
  unfold openNode
  by_cases hroom : s.maxDepth ≤ s.depth
  · rw [if_pos hroom, if_pos (by omega), hmax]
    rfl
  · rw [if_neg hroom, if_neg (by omega)]
    rfl

/-- An end tag finds its element above, or none: no element can end below. -/
theorem closeElement_above (hbase : base.Supports limit) (name : String) :
    (s.above base).closeElement name = stepAbove base (s.closeElement name) := by
  have hdepth := @depth_above base s limit hbase
  have hopened := @opened_above base s limit hbase
  obtain ⟨maxDepth, root, nodes⟩ := s
  cases nodes with
  | nil =>
    obtain ⟨hsupports, -, -⟩ := hbase.pushRow root.reverse
    have hnodes : (above ⟨maxDepth, root, []⟩ base).nodes = (base.pushRow root.reverse).nodes := rfl
    unfold closeElement
    split
    · rename_i tag children outer htop
      have hblock := hsupports.closed (.element tag children) (by rw [← hnodes, htop]; rfl)
      cases hblock
    · rw [hdepth, hopened]
      rfl
  | cons top outer =>
    cases top with
    | element tag children =>
      have hpush := above_push ⟨maxDepth, root, outer⟩ base (OpenNode.element tag children).close
      simp only [closeElement, nodes_above_cons, hdepth]
      split
      · exact congrArg Step.ok hpush.symm
      · rfl
    | block expression children inverse =>
      simp only [closeElement, nodes_above_cons, hdepth, hopened]
      rfl

/-- **A token above another stack** does there what it does without it. -/
theorem mergeToken_above (hbase : base.Supports limit) (hlimit : s.maxDepth = limit)
    (token : Token) : (s.above base).mergeToken token = stepAbove base (s.mergeToken token) := by
  cases token with
  | text content => exact congrArg Step.ok (above_push s base (.text content)).symm
  | comment content => exact congrArg Step.ok (above_push s base (.comment content)).symm
  | startTag tag =>
    simp only [mergeToken, openElement]
    split
    · exact congrArg Step.ok (above_push s base _).symm
    · exact openNode_above hbase hlimit _
  | endTag tag => exact closeElement_above hbase tag.name

/-- A block that is open above goes on there. -/
theorem startInverse_above (hbase : base.Supports limit) (hne : s.nodes ≠ []) :
    (s.above base).startInverse = stepAbove base s.startInverse := by
  have hdepth := @depth_above base s limit hbase
  have hopened := @opened_above base s limit hbase
  obtain ⟨maxDepth, root, nodes⟩ := s
  obtain ⟨top, outer, rfl⟩ := List.exists_cons_of_ne_nil hne
  cases top with
  | element tag children =>
    simp only [startInverse, nodes_above_cons, hdepth, hopened]
    rfl
  | block expression children inverse => rfl

theorem leaveBlock_above (hbase : base.Supports limit) (hne : s.nodes ≠ []) :
    (s.above base).leaveBlock = stepAbove base s.leaveBlock := by
  have hdepth := @depth_above base s limit hbase
  have hopened := @opened_above base s limit hbase
  obtain ⟨maxDepth, root, nodes⟩ := s
  obtain ⟨top, outer, rfl⟩ := List.exists_cons_of_ne_nil hne
  cases top with
  | element tag children =>
    simp only [leaveBlock, nodes_above_cons, hdepth, hopened]
    rfl
  | block expression children inverse =>
    exact congrArg Step.ok (above_push ⟨maxDepth, root, outer⟩ base
      (OpenNode.block expression children inverse).close).symm

end OpenStack

/-! ### Assemblies with another stack -/

namespace Assembly

/-- An assembly with another stack in place of its own. -/
def mapStack (f : OpenStack → OpenStack) (a : Assembly) : Assembly :=
  { a with stack := f a.stack }

section MapStack

variable {f : OpenStack → OpenStack} (hpush : ∀ s node, f (s.push node) = (f s).push node)
include hpush

theorem flushText_mapStack (a : Assembly) :
    (a.mapStack f).flushText = a.flushText.mapStack f := by
  simp only [flushText, mapStack]
  split
  · simp only [hpush]
  · rfl

/-- An expression that does not go to the stack goes to the token in hand. -/
theorem placeMustache_mapStack (a : Assembly) (m : Mustache) :
    (a.mapStack f).placeMustache m = (a.placeMustache m).map (mapStack f) := by
  have hnode : (a.mapStack f).stack.push (.mustache m) = f (a.stack.push (.mustache m)) :=
    (hpush a.stack (.mustache m)).symm
  have hmodifier : (a.mapStack f).addModifier m = (a.addModifier m).map (mapStack f) := by
    simp only [addModifier, mapStack]
    split <;> rfl
  have hvalue : (a.mapStack f).addToValue m = (a.addToValue m).map (mapStack f) := by
    simp only [addToValue, mapStack]
    split
    · rw [Option.map_map]
      rfl
    · rfl
  have hcomment : (a.mapStack f).addToComment m = (a.addToComment m).map (mapStack f) := by
    simp only [addToComment, mapStack, Option.map_map]
    rfl
  unfold placeMustache
  rw [hnode, hmodifier, hvalue, hcomment]
  have hstate : (a.mapStack f).lexer.state = a.lexer.state := rfl
  rw [hstate]
  cases a.lexer.state <;> rfl

end MapStack

end Assembly

/-! ### One assembly above another stack -/

/-- An assembly with its stack above another one. -/
def Assembly.above (base : OpenStack) (a : Assembly) : Assembly :=
  { a with stack := a.stack.above base }

/-- An outcome with its stack above another one. -/
def Outcome.above (base : OpenStack) (o : Outcome) : Outcome :=
  ⟨o.assembly.above base, o.error.map (TemplateError.above base)⟩

theorem Outcome.ofStack_above (base : OpenStack) (a : Assembly) (step : Step OpenStack) :
    ofStack (a.above base) (base.stepAbove step) = (ofStack a step).above base := by
  cases step <;> rfl

namespace Assembly

variable {base : OpenStack} {limit : Nat} {a : Assembly}

theorem mergeTokens_above (hbase : base.Supports limit) :
    ∀ (tokens : List Token) {a : Assembly}, a.stack.WellFormed limit →
      (∀ token ∈ tokens, token.WellFormed) →
      (a.above base).mergeTokens tokens = (a.mergeTokens tokens).above base := by
  intro tokens
  induction tokens with
  | nil => intro a _ _; rfl
  | cons token rest ih =>
    intro a h htokens
    obtain ⟨htoken, hrest⟩ := List.forall_mem_cons.mp htokens
    obtain ⟨room, hstack⟩ := h
    have hmerge : (a.above base).mergeToken token = (a.mergeToken token).above base := by
      unfold mergeToken
      rw [← Outcome.ofStack_above, ← OpenStack.mergeToken_above hbase hstack.maxDepth]
      rfl
    rw [mergeTokens, mergeTokens, hmerge]
    cases hresult : a.stack.mergeToken token with
    | ok stack =>
      simp only [mergeToken, hresult, Outcome.ofStack, Outcome.above, Outcome.andThen,
        Option.map_none]
      exact ih (OpenStack.WellFormed.mergeToken ⟨room, hstack⟩ htoken hresult) hrest
    | error e left => simp [mergeToken, hresult, Outcome.ofStack, Outcome.above, Outcome.andThen]

theorem flushText_above (a : Assembly) : (a.above base).flushText = a.flushText.above base :=
  @flushText_mapStack (·.above base) (fun s node => s.above_push base node) a

/-- An expression goes to the stack above, or to the token in hand. -/
theorem placeMustache_above (a : Assembly) (m : Mustache) :
    (a.above base).placeMustache m = (a.placeMustache m).map (Assembly.above base) :=
  @placeMustache_mapStack (·.above base) (fun s node => s.above_push base node) a m

theorem mergeMustache_above (a : Assembly) (m : Mustache) :
    (a.above base).mergeMustache m = (a.mergeMustache m).above base := by
  rw [mergeMustache, mergeMustache, flushText_above, placeMustache_above]
  cases a.flushText.placeMustache m <;> rfl

theorem enterBlock_above (hbase : base.Supports limit) (h : a.WellFormed limit) (e : Expression) :
    (a.above base).enterBlock e = (a.enterBlock e).above base := by
  obtain ⟨room, hstack⟩ := h.flushText.stack
  have hopen : (a.flushText.stack.above base).openBlock e =
      base.stepAbove (a.flushText.stack.openBlock e) :=
    OpenStack.openNode_above hbase hstack.maxDepth (.block e [] none)
  rw [enterBlock, enterBlock, flushText_above]
  by_cases hdata : a.flushText.lexer.state = .data
  · rw [if_pos hdata, ← Outcome.ofStack_above, ← hopen]
    exact if_pos hdata
  · rw [if_neg hdata]
    exact if_neg hdata

theorem closeProgram_above (hbase : base.Supports limit) (a : Assembly) :
    (a.above base).closeProgram = a.closeProgram.above base := by
  have hdepth : (a.flushText.above base).stack.depth = a.flushText.stack.depth + base.depth :=
    OpenStack.depth_above hbase
  have hopened : (halfRead a.flushText.lexer).above base = halfRead a.flushText.lexer := by
    unfold halfRead
    split <;> rfl
  rw [closeProgram, closeProgram, flushText_above]
  by_cases hdata : a.flushText.lexer.state = .data
  · rw [if_pos hdata]
    exact if_pos hdata
  · rw [if_neg hdata, hdepth]
    refine (if_neg hdata).trans ?_
    simp only [Outcome.above, Option.map_some, TemplateError.above, hopened]
    rfl

/-- **What is done to an assembly is done to it above another stack**, if it is no step of
what is open below. -/
theorem apply_above (hbase : base.Supports limit) (h : a.WellFormed limit) {operation : Operation}
    (hoperation : operation.WellFormed) (hblocks : operation.endsPart = true → a.stack.blocks ≠ []) :
    (a.above base).apply operation = (a.apply operation).above base := by
  obtain ⟨room, hstack⟩ := h.stack
  have hne : operation.endsPart = true → a.stack.nodes ≠ [] := by
    intro hends hnil
    exact hblocks hends (by simp [OpenStack.blocks, hnil])
  cases operation with
  | feed text =>
    have hmerge := mergeTokens_above hbase (a.lexer.read text.toList).1 h.stack
      (Lexer.fits_read h.lexer text.toList).2
    rw [apply, apply, feed_eq_mergeTokens, feed_eq_mergeTokens]
    exact congrArg (Outcome.withLexer · (a.lexer.read text.toList).2) hmerge
  | token t =>
    rw [apply, apply, mergeToken, mergeToken, ← Outcome.ofStack_above,
      ← OpenStack.mergeToken_above hbase hstack.maxDepth]
    rfl
  | mustache m => exact mergeMustache_above a m
  | enterBlock expression => exact enterBlock_above hbase h expression
  | flushText => exact congrArg (Outcome.mk · none) (flushText_above a)
  | closeProgram => exact closeProgram_above hbase a
  | startInverse =>
    rw [apply, apply, startInverse, startInverse, ← Outcome.ofStack_above,
      ← OpenStack.startInverse_above hbase (hne rfl)]
    rfl
  | leaveBlock =>
    rw [apply, apply, leaveBlock, leaveBlock, ← Outcome.ofStack_above,
      ← OpenStack.leaveBlock_above hbase (hne rfl)]
    rfl

/-- **A run above another stack** is the run without it, as long as every step of a block
belongs to a block that is open above. -/
theorem run_above (hbase : base.Supports limit) :
    ∀ (operations : List Operation) {a : Assembly} {blocks : List (String × Bool)},
      a.WellFormed limit → (∀ operation ∈ operations, operation.WellFormed) →
      operations.foldlM Operation.blocksAfter? a.stack.blocks = some blocks →
      (a.above base).run operations = (a.run operations).above base ∧
        ∀ b, a.run operations = ⟨b, none⟩ → b.stack.blocks = blocks := by
  intro operations
  induction operations with
  | nil =>
    intro a blocks _ _ hblocks
    refine ⟨rfl, fun b hb => ?_⟩
    cases hb
    exact Option.some.inj hblocks
  | cons operation rest ih =>
    intro a blocks h hoperations hblocks
    obtain ⟨hoperation, hrest⟩ := List.forall_mem_cons.mp hoperations
    rw [List.foldlM_cons] at hblocks
    obtain ⟨next, hnext, hlater⟩ := Option.bind_eq_some_iff.mp hblocks
    unfold Operation.blocksAfter? at hnext
    split at hnext
    · cases hnext
    · rename_i hown
      have hends : operation.endsPart = true → a.stack.blocks ≠ [] := fun hends hnil =>
        hown ⟨hends, hnil⟩
      have hwell := h.apply hoperation
      rw [run, run, apply_above hbase h hoperation hends]
      cases happly : a.apply operation with
      | mk b error =>
        cases error with
        | some e => exact ⟨rfl, fun c hc => by cases hc⟩
        | none =>
          have hafter := blocks_apply happly
          rw [happly] at hwell
          rw [← Option.some.inj hnext, ← hafter] at hlater
          exact ih hwell hrest hlater

/-- **A program above another stack** is that program on its own, and all its blocks are
closed in the end. -/
theorem run_program_above (hbase : base.Supports limit) (program : Program) :
    run ⟨{}, base⟩ (Statement.operationsOf program) =
        ((fresh limit).run (Statement.operationsOf program)).above base ∧
      ∀ b, (fresh limit).run (Statement.operationsOf program) = ⟨b, none⟩ → b.stack.blocks = [] :=
  run_above hbase (Statement.operationsOf program) (.fresh limit)
    (Statement.wellFormed_operationsOf program) (Statement.blocksAfter?_operationsOf program [])

end Assembly

end TemplateTree
