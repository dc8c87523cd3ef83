/-
The stack as one list of entries.

A stack keeps its root apart from the open nodes, and keeps no mark of the row that is
being filled, so there is much that cannot go wrong with it.  In a list of entries it can:
the root is an entry among others, a block carries a mark besides its second row, and a
step that needs an entry may find none.

The list is kept in step with the stack here.  `after?_ofStack` says that every step on
the list of a stack finds what it needs, and leaves the list of the stack after the same
step.  So lists that come about from the root alone are lists of stacks, and what they
keep to is known from the stack: the root is at the bottom and nowhere else, no more
entries lie above it than may, and no row has two texts side by side.
-/
import TemplateTree.Proofs.Regular

namespace TemplateTree

/-! ### The list -/

/-- An entry of the list: the root, or an open node.  A block has a mark that tells whether its
second row is being filled. -/
inductive Entry
  | root (children : List Node)
  | element (tag : StartTag) (children : List Node)
  | block (expression : Expression) (children : List Node) (inverse : Option (List Node))
    (inInverse : Bool)

namespace Entry

/-- Is this the root? -/
def isRoot : Entry → Bool
  | root _ => true
  | element .. | block .. => false

/-- Adds a node to the row that is being filled.  The mark of a block tells which row that is,
and a second row that is not there is begun. -/
def push (node : Node) : Entry → Entry
  | root children => root (Node.push children node)
  | element tag children => element tag (Node.push children node)
  | block expression children inverse false =>
    block expression (Node.push children node) inverse false
  | block expression children inverse true =>
    block expression children (some (Node.push (inverse.getD []) node)) true

/-- As error messages put it. -/
def opened : Entry → Opened
  | root _ => .fragment
  | element tag _ => .element tag.name
  | block expression .. => .block expression.path

/-- An open node as an entry. -/
def ofOpenNode : OpenNode → Entry
  | .element tag children => element tag children
  | .block expression children inverse => block expression children inverse inverse.isSome

/-- What an entry keeps to: an element does not end itself, a block has a second row exactly when
that row is being filled, and no row has two texts side by side. -/
def Sound : Entry → Prop
  | root children => Node.JoinedRow children
  | element tag children => tag.selfClosing = false ∧ Node.JoinedRow children
  | block _ children inverse inInverse =>
    (inverse.isSome = true ↔ inInverse = true) ∧ Node.JoinedRow children ∧
      ∀ nodes ∈ inverse, Node.JoinedRow nodes

theorem push_ofOpenNode (child : Node) (node : OpenNode) :
    (ofOpenNode node).push child = ofOpenNode (node.push child) := by
  match node with
  | .element tag children => rfl
  | .block expression children none => rfl
  | .block expression children (some inverse) => rfl

theorem isRoot_ofOpenNode (node : OpenNode) : (ofOpenNode node).isRoot = false := by
  match node with
  | .element tag children => rfl
  | .block expression children inverse => rfl

theorem sound_ofOpenNode {node : OpenNode} (h : node.Regular) : (ofOpenNode node).Sound := by
  match node, h with
  | .element tag children, h => exact h
  | .block expression children inverse, h => exact ⟨Iff.rfl, h.1, h.2⟩

end Entry

/-- A stack as one list of entries. -/
structure EntryStack where
  maxDepth : Nat
  /-- Innermost first.  An entry with fewer below it has the smaller index. -/
  entries : List Entry

namespace EntryStack

/-- Nothing open. -/
def new (maxDepth : Nat) : EntryStack :=
  ⟨maxDepth, [.root []]⟩

/-- The entries of a stack, its root at the bottom. -/
def ofStack (s : OpenStack) : EntryStack :=
  ⟨s.maxDepth, s.nodes.map Entry.ofOpenNode ++ [.root s.root]⟩

/-! #### Steps

A step gives nothing if it looks for an entry where there is none.  Otherwise it leaves a list, and
an error beside it if it failed. -/

/-- How many entries there are besides one, which has to be there. -/
def depth? (s : EntryStack) : Option Nat :=
  match s.entries with
  | [] => none
  | _ :: outer => some outer.length

/-- Adds a node to the innermost entry. -/
def push? (s : EntryStack) (node : Node) : Option EntryStack :=
  match s.entries with
  | [] => none
  | top :: outer => some { s with entries := top.push node :: outer }

/-- Adds an entry, unless that would be one too many. -/
def open? (s : EntryStack) (entry : Entry) : Option (Step EntryStack) :=
  s.depth?.map fun depth =>
    if s.maxDepth ≤ depth then .error (.nestingTooDeep s.maxDepth) s
    else .ok { s with entries := entry :: s.entries }

/-- Takes the innermost entry away, which has to be an element with the name given, and adds it
as a node to the one below. -/
def closeElement? (s : EntryStack) (name : String) : Option (Step EntryStack) :=
  match s.entries with
  | [] => none
  | .element tag children :: outer =>
    if sameIgnoringCase tag.name name then
      (push? { s with entries := outer } (.element tag children.reverse)).map .ok
    else some (.error (.unmatchedCloseTag tag.name name outer.length) s)
  | top :: outer => some (.error (.unexpectedCloseTag name top.opened outer.length) s)

/-- Takes a token. -/
def mergeToken? (s : EntryStack) : Token → Option (Step EntryStack)
  | .text content => (s.push? (.text content)).map .ok
  | .comment content => (s.push? (.comment content)).map .ok
  | .startTag tag =>
    let tag := { tag with name := asciiLower tag.name }
    if tag.selfClosing then (s.push? (.element tag [])).map .ok else s.open? (.element tag [])
  | .endTag tag => s.closeElement? tag.name

/-- Begins the second row of the innermost entry, which has to be a block, and marks it. -/
def startInverse? (s : EntryStack) : Option (Step EntryStack) :=
  match s.entries with
  | [] => none
  | .block expression children _ _ :: outer =>
    some (.ok { s with entries := .block expression children (some []) true :: outer })
  | top :: outer => some (.error (.unterminatedStructure top.opened outer.length) s)

/-- Takes the innermost entry away, which has to be a block, and adds it as a node to the one
below. -/
def leaveBlock? (s : EntryStack) : Option (Step EntryStack) :=
  match s.entries with
  | [] => some (.ok s)
  | .block expression children inverse _ :: outer =>
    (push? { s with entries := outer }
      (.block expression children.reverse (inverse.map List.reverse))).map .ok
  | top :: outer => some (.error (.unterminatedStructure top.opened outer.length) s)

/-- Takes tokens, up to the first that fails. -/
def mergeTokens? (s : EntryStack) : List Token → Option EntryStack
  | [] => some s
  | token :: rest =>
    match s.mergeToken? token with
    | none => none
    | some (.ok next) => next.mergeTokens? rest
    | some (.error _ left) => some left

/-- Takes the text that a lexer has in hand. -/
def flushText? (s : EntryStack) (l : Lexer) : Option EntryStack :=
  match l.takeText.1 with
  | some content => s.push? (.text content)
  | none => some s

/-- The list after an operation with a lexer at its side, whether it fails or not. -/
def after? (s : EntryStack) (call : Lexer × Operation) : Option EntryStack :=
  match call with
  | (l, .feed text) => s.mergeTokens? (l.feed text).1
  | (_, .token t) => (s.mergeToken? t).map Step.left
  | (l, .mustache m) =>
    (s.flushText? l).bind fun s => if l.state = .data then s.push? (.mustache m) else some s
  | (l, .enterBlock expression) =>
    (s.flushText? l).bind fun s =>
      if l.state = .data then (s.open? (.block expression [] none false)).map Step.left else some s
  | (l, .flushText) => s.flushText? l
  | (l, .closeProgram) =>
    -- the error that is due outside of the state between nodes counts the entries
    (s.flushText? l).bind fun s => if l.state = .data then some s else s.depth?.map fun _ => s
  | (_, .startInverse) => s.startInverse?.map Step.left
  | (_, .leaveBlock) => s.leaveBlock?.map Step.left

/-! #### In step with the stack -/

theorem ofStack_empty (maxDepth : Nat) : ofStack { maxDepth } = new maxDepth := rfl

theorem depth?_ofStack (s : OpenStack) : (ofStack s).depth? = some s.depth := by
  obtain ⟨maxDepth, root, nodes⟩ := s
  match nodes with
  | [] => rfl
  | top :: outer => simp [ofStack, depth?, OpenStack.depth]

theorem push?_ofStack (s : OpenStack) (node : Node) :
    (ofStack s).push? node = some (ofStack (s.push node)) := by
  obtain ⟨maxDepth, root, nodes⟩ := s
  match nodes with
  | [] => rfl
  | top :: outer => simp [ofStack, push?, OpenStack.push, Entry.push_ofOpenNode]

theorem open?_ofStack (s : OpenStack) (node : OpenNode) :
    (ofStack s).open? (.ofOpenNode node) = some ((s.openNode node).map ofStack) := by
  rw [open?, depth?_ofStack, Option.map_some, OpenStack.openNode]
  have hmax : (ofStack s).maxDepth = s.maxDepth := rfl
  rw [hmax]
  by_cases hfull : s.maxDepth ≤ s.depth
  · rw [if_pos hfull, if_pos hfull]
    rfl
  · rw [if_neg hfull, if_neg hfull]
    rfl

theorem closeElement?_ofStack (s : OpenStack) (name : String) :
    (ofStack s).closeElement? name = some ((s.closeElement name).map ofStack) := by
  obtain ⟨maxDepth, root, nodes⟩ := s
  match nodes with
  | [] => rfl
  | .block expression children inverse :: outer =>
    simp [ofStack, Entry.ofOpenNode, closeElement?, OpenStack.closeElement, Step.map,
      Entry.opened, OpenStack.opened, OpenNode.opened, OpenStack.depth]
  | .element tag children :: outer =>
    simp only [ofStack, Entry.ofOpenNode, closeElement?, OpenStack.closeElement, List.map_cons,
      List.cons_append]
    by_cases hname : sameIgnoringCase tag.name name = true
    · rw [if_pos hname, if_pos hname]
      exact congrArg (Option.map Step.ok) (push?_ofStack ⟨maxDepth, root, outer⟩ _)
    · rw [if_neg hname, if_neg hname]
      simp [ofStack, Entry.ofOpenNode, Step.map, OpenStack.depth]

theorem mergeToken?_ofStack (s : OpenStack) (token : Token) :
    (ofStack s).mergeToken? token = some ((s.mergeToken token).map ofStack) := by
  match token with
  | .text content | .comment content =>
    rw [mergeToken?, push?_ofStack]
    rfl
  | .startTag tag =>
    simp only [mergeToken?, OpenStack.mergeToken, OpenStack.openElement]
    by_cases hself : tag.selfClosing = true
    · rw [if_pos hself, if_pos hself, push?_ofStack]
      rfl
    · rw [if_neg hself, if_neg hself]
      exact open?_ofStack s (.element { tag with name := asciiLower tag.name } [])
  | .endTag tag => exact closeElement?_ofStack s tag.name

theorem startInverse?_ofStack (s : OpenStack) :
    (ofStack s).startInverse? = some (s.startInverse.map ofStack) := by
  obtain ⟨maxDepth, root, nodes⟩ := s
  match nodes with
  | [] => rfl
  | .block expression children inverse :: outer => rfl
  | .element tag children :: outer =>
    simp [ofStack, Entry.ofOpenNode, startInverse?, OpenStack.startInverse, Step.map,
      Entry.opened, OpenStack.opened, OpenNode.opened, OpenStack.depth]

theorem leaveBlock?_ofStack (s : OpenStack) :
    (ofStack s).leaveBlock? = some (s.leaveBlock.map ofStack) := by
  obtain ⟨maxDepth, root, nodes⟩ := s
  match nodes with
  | [] => rfl
  | .block expression children inverse :: outer =>
    exact congrArg (Option.map Step.ok) (push?_ofStack ⟨maxDepth, root, outer⟩ _)
  | .element tag children :: outer =>
    simp [ofStack, Entry.ofOpenNode, leaveBlock?, OpenStack.leaveBlock, Step.map,
      Entry.opened, OpenStack.opened, OpenNode.opened, OpenStack.depth]

/-- Step by step, whether it fails or not. -/
theorem map_left_ofStack (a : Assembly) {step? : Option (Step EntryStack)} {step : Step OpenStack}
    (h : step? = some (step.map ofStack)) :
    step?.map Step.left = some (ofStack (Outcome.ofStack a step).assembly.stack) := by
  rw [h]
  cases step <;> rfl

theorem mergeTokens?_ofStack (tokens : List Token) (a : Assembly) :
    (ofStack a.stack).mergeTokens? tokens = some (ofStack (a.mergeTokens tokens).assembly.stack) := by
  induction tokens generalizing a with
  | nil => rfl
  | cons token rest ih =>
    rw [mergeTokens?, mergeToken?_ofStack, Assembly.mergeTokens, Assembly.mergeToken]
    cases a.stack.mergeToken token with
    | error e left => rfl
    | ok stack => exact ih { a with stack }

theorem flushText?_ofStack (a : Assembly) :
    (ofStack a.stack).flushText? a.lexer = some (ofStack a.flushText.stack) := by
  rw [flushText?, Assembly.flushText]
  rcases a.lexer.takeText with ⟨_ | content, lexer⟩
  · rfl
  · exact push?_ofStack a.stack (.text content)

/-- **Every step on the list of a stack finds what it needs, and leaves the list of the stack
after the same step.** -/
theorem after?_ofStack (s : OpenStack) (call : Lexer × Operation) :
    (ofStack s).after? call = some (ofStack (s.after call)) := by
  obtain ⟨l, operation⟩ := call
  have hflush := flushText?_ofStack ⟨l, s⟩
  have hstate := (Assembly.lexer_flushText ⟨l, s⟩).1
  match operation with
  | .feed text =>
    rw [OpenStack.after, Assembly.apply, Assembly.feed_eq_mergeTokens]
    exact mergeTokens?_ofStack _ ⟨l, s⟩
  | .token t => exact map_left_ofStack ⟨l, s⟩ (mergeToken?_ofStack s t)
  | .startInverse => exact map_left_ofStack ⟨l, s⟩ (startInverse?_ofStack s)
  | .leaveBlock => exact map_left_ofStack ⟨l, s⟩ (leaveBlock?_ofStack s)
  | .flushText => exact hflush
  | .mustache m =>
    rw [after?, hflush, Option.bind_some, OpenStack.after, Assembly.apply, Assembly.stack_mergeMustache]
    by_cases hdata : l.state = .data
    · rw [if_pos hdata, if_pos hdata, push?_ofStack]
    · rw [if_neg hdata, if_neg hdata]
  | .enterBlock expression =>
    rw [after?, hflush, Option.bind_some, OpenStack.after, Assembly.apply, Assembly.enterBlock]
    simp only [hstate]
    by_cases hdata : l.state = .data
    · rw [if_pos hdata, if_pos hdata]
      exact map_left_ofStack _ (open?_ofStack _ (.block expression [] none))
    · rw [if_neg hdata, if_neg hdata]
  | .closeProgram =>
    rw [after?, hflush, Option.bind_some, OpenStack.after, Assembly.apply, Assembly.closeProgram]
    simp only [hstate]
    by_cases hdata : l.state = .data
    · rw [if_pos hdata, if_pos hdata]
    · rw [if_neg hdata, if_neg hdata, depth?_ofStack, Option.map_some]

/-! #### What every list keeps to -/

/-- The root is at the bottom and nowhere else, there are no more entries above it than may be,
and each entry is sound. -/
structure Sound (limit : Nat) (s : EntryStack) : Prop where
  bottom : ∃ above children, s.entries = above ++ [.root children] ∧
    ∀ entry ∈ above, entry.isRoot = false
  maxDepth : s.maxDepth = limit
  depth : ∃ depth ≤ limit, s.depth? = some depth
  each : ∀ entry ∈ s.entries, entry.Sound

theorem sound_ofStack {limit : Nat} {s : OpenStack} (h : s.Regular limit) :
    (ofStack s).Sound limit := by
  refine ⟨⟨s.nodes.map Entry.ofOpenNode, s.root, rfl, ?_⟩, h.maxDepth,
    ⟨s.depth, h.depth, depth?_ofStack s⟩, ?_⟩
  · intro entry hmem
    obtain ⟨node, -, rfl⟩ := List.mem_map.mp hmem
    exact Entry.isRoot_ofOpenNode node
  · intro entry hmem
    rcases List.mem_append.mp hmem with hmem | hmem
    · obtain ⟨node, hnode, rfl⟩ := List.mem_map.mp hmem
      exact Entry.sound_ofOpenNode (h.nodes node hnode)
    · rw [List.mem_singleton.mp hmem]
      exact h.root

/-- From the list of a stack, any calls lead to the list of the stack after them. -/
theorem foldlM_after?_ofStack (calls : List (Lexer × Operation)) (s : OpenStack) :
    calls.foldlM after? (ofStack s) = some (ofStack (calls.foldl OpenStack.after s)) := by
  induction calls generalizing s with
  | nil => rfl
  | cons call rest ih =>
    rw [List.foldlM_cons, after?_ofStack]
    exact ih (s.after call)

/-- **Whatever is done to a new list of entries, in whatever order, with whatever lexers and
also after failures, no step misses an entry, and the list stays sound.**  It is the list of the
stack that the same calls make of a new stack. -/
theorem sound_of_calls (maxDepth : Nat) (calls : List (Lexer × Operation)) :
    ∃ s : EntryStack, calls.foldlM after? (new maxDepth) = some s ∧
      s = ofStack (calls.foldl OpenStack.after { maxDepth }) ∧ s.Sound maxDepth := by
  have hregular : (calls.foldl OpenStack.after { maxDepth }).Regular maxDepth := by
    refine List.foldlRecOn calls OpenStack.after (.empty maxDepth) ?_
    intro s h call _
    exact h.after call
  rw [← ofStack_empty]
  exact ⟨_, foldlM_after?_ofStack calls { maxDepth }, rfl, sound_ofStack hregular⟩

end EntryStack

end TemplateTree
