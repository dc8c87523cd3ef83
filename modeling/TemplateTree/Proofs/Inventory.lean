/-
What a tree has in it, in source order.

An inventory lists something of each node, of its comment, its expression, its start tag, its
block, and goes through a tree from left to right.  A stack is a tree that is not finished, so it
has an inventory too: that of the root, then those of the open nodes from the outside in.
Whatever is done to a stack adds its own part at the end, because what is added comes last in
the source.  So what a tree has in it is what was put on the stack, in that order.

One step is an exception: a block that goes on to its other part changes where it stands, in the
middle, and forgets what it had there if it does so a second time.  No program does the latter,
`InverseOnce` holds of all of them.
-/
import TemplateTree.Node.Query
import TemplateTree.Proofs.WellFormed

namespace TemplateTree

/-- What is listed of a node.  Text and what a node has inside are no part of it. -/
structure Inventory (α : Type) where
  comment : String → List α := fun _ => []
  mustache : Mustache → List α := fun _ => []
  element : StartTag → List α := fun _ => []
  /-- Of a block, its expression and whether it has a row for the other case. -/
  block : Expression × Bool → List α := fun _ => []

namespace Inventory

variable {α : Type} (I : Inventory α)

/-- What is listed of a node itself. -/
def ofNode : Node → List α
  | .element tag _ => I.element tag
  | .comment content => I.comment content
  | .mustache m => I.mustache m
  | .block expression _ inverse => I.block (expression, inverse.isSome)
  | .text _ => []

/-- What is listed of a row of nodes and all nodes below, in source order. -/
def ofRow (nodes : List Node) : List α :=
  (Node.descendantsOf nodes).flatMap I.ofNode

/-- The same of the row for the other case, if there is one. -/
def ofInverse (inverse : Option (List Node)) : List α :=
  (Node.descendantsOfInverse inverse).flatMap I.ofNode

/-- What is listed of an open node, as far as it goes. -/
def ofOpenNode : OpenNode → List α
  | .element tag children => I.element tag ++ I.ofRow children.reverse
  | .block expression children inverse =>
    I.block (expression, inverse.isSome) ++
      (I.ofRow children.reverse ++ I.ofInverse (inverse.map List.reverse))

/-- What is listed of a stack, from the outside in. -/
def ofStack (s : OpenStack) : List α :=
  I.ofRow s.root.reverse ++ s.nodes.reverse.flatMap I.ofOpenNode

/-- What a token adds to a stack. -/
def ofToken : Token → List α
  | .text _ | .endTag _ => []
  | .comment content => I.comment content
  | .startTag tag => I.element { tag with name := asciiLower tag.name }

/-! ### Rows -/

@[simp] theorem ofRow_nil : I.ofRow [] = [] := rfl

@[simp] theorem ofInverse_none : I.ofInverse none = [] := rfl

@[simp] theorem ofInverse_some (nodes : List Node) : I.ofInverse (some nodes) = I.ofRow nodes := rfl

theorem ofRow_cons (node : Node) (rest : List Node) :
    I.ofRow (node :: rest) = I.ofRow [node] ++ I.ofRow rest := by
  simp [ofRow, Node.descendantsOf]

theorem ofRow_append (first second : List Node) :
    I.ofRow (first ++ second) = I.ofRow first ++ I.ofRow second := by
  induction first with
  | nil => rfl
  | cons node rest ih =>
    rw [List.cons_append, ofRow_cons, ih, ofRow_cons I node rest, List.append_assoc]

@[simp] theorem ofRow_element (tag : StartTag) (children : List Node) :
    I.ofRow [.element tag children] = I.element tag ++ I.ofRow children := by
  simp [ofRow, Node.descendantsOf, Node.withDescendants, ofNode]

@[simp] theorem ofRow_block (expression : Expression) (children : List Node)
    (inverse : Option (List Node)) :
    I.ofRow [.block expression children inverse] =
      I.block (expression, inverse.isSome) ++ (I.ofRow children ++ I.ofInverse inverse) := by
  simp [ofRow, ofInverse, Node.descendantsOf, Node.withDescendants, ofNode]

@[simp] theorem ofRow_text (content : String) : I.ofRow [.text content] = [] := by
  simp [ofRow, Node.descendantsOf, Node.withDescendants, ofNode]

@[simp] theorem ofRow_comment (content : String) :
    I.ofRow [.comment content] = I.comment content := by
  simp [ofRow, Node.descendantsOf, Node.withDescendants, ofNode]

@[simp] theorem ofRow_mustache (m : Mustache) : I.ofRow [.mustache m] = I.mustache m := by
  simp [ofRow, Node.descendantsOf, Node.withDescendants, ofNode]

/-- Text that is joined to text is nothing in an inventory, before or after. -/
theorem ofRow_push (row : List Node) (node : Node) :
    I.ofRow (Node.push row node).reverse = I.ofRow row.reverse ++ I.ofRow [node] := by
  unfold Node.push
  split
  · simp [ofRow_append]
  · simp [ofRow_append]

/-! ### Stacks -/

theorem ofOpenNode_push (node : OpenNode) (child : Node) :
    I.ofOpenNode (node.push child) = I.ofOpenNode node ++ I.ofRow [child] := by
  match node with
  | .element tag children => simp [OpenNode.push, ofOpenNode, ofRow_push]
  | .block expression children none =>
    simp [OpenNode.push, ofOpenNode, ofRow_push]
  | .block expression children (some inverse) =>
    simp [OpenNode.push, ofOpenNode, ofRow_push]

/-- Closing a node changes nothing in it. -/
theorem ofRow_close (node : OpenNode) : I.ofRow [node.close] = I.ofOpenNode node := by
  cases node <;> simp [OpenNode.close, ofOpenNode]

variable {s s' : OpenStack}

theorem ofStack_push (s : OpenStack) (node : Node) :
    I.ofStack (s.push node) = I.ofStack s ++ I.ofRow [node] := by
  obtain ⟨maxDepth, root, nodes⟩ := s
  cases nodes with
  | nil => simp [OpenStack.push, ofStack, ofRow_push]
  | cons top outer => simp [OpenStack.push, ofStack, ofOpenNode_push]

theorem ofStack_openNode {node : OpenNode} (h : s.openNode node = .ok s') :
    I.ofStack s' = I.ofStack s ++ I.ofOpenNode node := by
  unfold OpenStack.openNode at h
  split at h
  · cases h
  · cases h
    simp [ofStack]

/-- The innermost node is moved as a whole. -/
theorem ofStack_close {top : OpenNode} {outer : List OpenNode} (hnodes : s.nodes = top :: outer) :
    I.ofStack (OpenStack.push { s with nodes := outer } top.close) = I.ofStack s := by
  rw [ofStack_push, ofRow_close]
  simp [ofStack, hnodes]

/-- **A token adds itself**, an end tag nothing. -/
theorem ofStack_mergeToken {token : Token} (h : s.mergeToken token = .ok s') :
    I.ofStack s' = I.ofStack s ++ I.ofToken token := by
  cases token with
  | text content | comment content =>
    cases h
    simp [ofStack_push, ofToken]
  | startTag tag =>
    simp only [OpenStack.mergeToken, OpenStack.openElement] at h
    split at h
    · cases h
      simp [ofStack_push, ofToken]
    · rw [ofStack_openNode I h]
      simp [ofOpenNode, ofToken]
  | endTag tag =>
    simp only [OpenStack.mergeToken, OpenStack.closeElement] at h
    split at h
    · rename_i start children outer hnodes
      split at h
      · cases h
        simp [ofStack_close I hnodes, ofToken]
      · cases h
    · cases h

theorem ofStack_openBlock {expression : Expression} (h : s.openBlock expression = .ok s') :
    I.ofStack s' = I.ofStack s ++ I.block (expression, false) := by
  rw [ofStack_openNode I h]
  simp [ofOpenNode]

/-- A second part that is begun for the first time takes nothing away, and adds nothing unless
the inventory asks for it. -/
theorem ofStack_startInverse
    (hblock : ∀ expression, I.block (expression, true) = I.block (expression, false))
    (honce : Operation.startInverse.InverseOnceAt s.blocks)
    (h : s.startInverse = .ok s') : I.ofStack s' = I.ofStack s := by
  unfold OpenStack.startInverse at h
  split at h
  · rename_i expression children inverse outer hnodes
    cases h
    have hinverse : inverse = none := by
      simpa [Operation.InverseOnceAt, OpenStack.blocks, hnodes, OpenNode.block?] using honce
    simp [ofStack, hnodes, hinverse, ofOpenNode, hblock]
  · cases h

theorem ofStack_leaveBlock (h : s.leaveBlock = .ok s') : I.ofStack s' = I.ofStack s := by
  unfold OpenStack.leaveBlock at h
  split at h
  · rename_i expression children inverse outer hnodes
    cases h
    exact ofStack_close I hnodes
  · cases h

/-! ### Assemblies -/

variable {a b : Assembly}

theorem ofStack_mergeTokens (tokens : List Token) :
    ∀ {a b : Assembly}, a.mergeTokens tokens = ⟨b, none⟩ →
      I.ofStack b.stack = I.ofStack a.stack ++ tokens.flatMap I.ofToken := by
  induction tokens with
  | nil =>
    intro a b h
    cases h
    simp
  | cons token rest ih =>
    intro a b h
    obtain ⟨next, hmerge, hlater⟩ := Outcome.done_of_andThen h
    obtain ⟨stack, hstack, rfl⟩ := Assembly.stack_of_ofStack hmerge
    rw [ih hlater, ofStack_mergeToken I hstack]
    simp

end Inventory

/-! ### Programs go on to the other part of a block once -/

namespace Statement

mutual

theorem inverseOnce_operations_append (statement : Statement) (blocks : List (String × Bool))
    {rest : List Operation} (h : Operation.InverseOnce blocks rest) :
    Operation.InverseOnce blocks (statement.operations ++ rest) := by
  cases statement with
  | content text | mustache m => exact ⟨trivial, h⟩
  | block expression body inverse =>
    have hbody : Operation.InverseOnce ((expression.path, false) :: blocks)
        (.closeProgram :: (inverseOperations inverse ++ .leaveBlock :: rest)) :=
      ⟨trivial, inverseOnce_inverseOperations_append inverse expression.path blocks h⟩
    have hall := inverseOnce_operationsOf_append body _ hbody
    simp only [operations, List.cons_append, List.append_assoc, List.nil_append]
    exact ⟨trivial, hall⟩

theorem inverseOnce_operationsOf_append (program : List Statement) (blocks : List (String × Bool))
    {rest : List Operation} (h : Operation.InverseOnce blocks rest) :
    Operation.InverseOnce blocks (operationsOf program ++ rest) := by
  cases program with
  | nil => exact h
  | cons statement more =>
    rw [operationsOf, List.append_assoc]
    exact inverseOnce_operations_append statement blocks
      (inverseOnce_operationsOf_append more blocks h)

theorem inverseOnce_inverseOperations_append (inverse : Option (List Statement)) (name : String)
    (blocks : List (String × Bool)) {rest : List Operation}
    (h : Operation.InverseOnce blocks rest) :
    Operation.InverseOnce ((name, false) :: blocks)
      (inverseOperations inverse ++ .leaveBlock :: rest) := by
  cases inverse with
  | none => exact ⟨trivial, h⟩
  | some program =>
    have hrest : Operation.InverseOnce ((name, true) :: blocks)
        (.closeProgram :: .leaveBlock :: rest) := ⟨trivial, trivial, h⟩
    have hall := inverseOnce_operationsOf_append program _ hrest
    simp only [inverseOperations, List.cons_append, List.append_assoc, List.nil_append]
    exact ⟨by simp [Operation.InverseOnceAt], hall⟩

end

/-- **In a program no block goes on to its other part twice.** -/
theorem inverseOnce_operationsOf (program : List Statement) (blocks : List (String × Bool)) :
    Operation.InverseOnce blocks (operationsOf program) := by
  have hall := @inverseOnce_operationsOf_append program blocks [] trivial
  rwa [List.append_nil] at hall

end Statement

end TemplateTree
