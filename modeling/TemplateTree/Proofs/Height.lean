/-
How high a stack has been.

While a tree is put together its depth is known so far: the open nodes nest as deep as they
are many, and a row in one of them nests as deep as what is finished in it.  The peak of a
stack is the largest of these depths, which is how deep the tree would nest if all open nodes
were closed at once.

Closing a node leaves the peak as it is, since what lies in it lies as deep as before, and
opening one raises the peak to the number of open nodes if it is less.  So the peak never goes
down, and in the end it is the depth of the tree: a tree nests as deep as its stack was high
at some time, and no deeper.
-/
import TemplateTree.Proofs.Inventory
import TemplateTree.Proofs.Regular

namespace TemplateTree

/-! ### Rows in rows -/

/-- How deep the outermost of some rows nests, each of them in a node of the next, if they nest
themselves as deep as given. -/
def peakOf : List Nat → Nat
  | [] => 0
  | inner :: outer => max (outer.length + inner) (peakOf outer)

/-- Depths of rows, after a node that nests `depth` deep was added to the innermost one. -/
def raise (depth : Nat) : List Nat → List Nat
  | [] => []
  | inner :: outer => max inner depth :: outer

theorem raise_zero (rows : List Nat) : raise 0 rows = rows := by
  unfold raise
  split
  · rfl
  · rw [Nat.max_zero]

theorem peakOf_open (rows : List Nat) : peakOf (0 :: rows) = max (peakOf rows) rows.length := by
  rw [peakOf, Nat.add_zero, Nat.max_comm]

/-- A row that is closed in a node of the next is as deep there. -/
theorem peakOf_close (inner : Nat) {outer : List Nat} (h : outer ≠ []) :
    peakOf (raise (inner + 1) outer) = peakOf (inner :: outer) := by
  obtain ⟨next, rest, rfl⟩ := List.exists_cons_of_ne_nil h
  simp only [raise, peakOf, List.length_cons]
  omega

theorem length_le_peakOf (rows : List Nat) : rows.length ≤ peakOf rows + 1 := by
  unfold peakOf
  split
  · exact Nat.zero_le _
  · rename_i inner outer
    rw [List.length_cons]
    omega

namespace Node

theorem nestingOf_reverse (elements : Bool) (nodes : List Node) :
    nestingOf elements nodes.reverse = nestingOf elements nodes := by
  refine eq_of_forall_ge_iff fun room => ?_
  simp [nestingOf_le_iff]

/-- Text joined to text is no deeper. -/
theorem nestingOf_push (elements : Bool) (row : List Node) (node : Node) :
    nestingOf elements (push row node) = max (nestingOf elements row) (node.nesting elements) := by
  unfold push
  split
  · simp [nestingOf, nesting]
  · rw [nestingOf, Nat.max_comm]

end Node

/-! ### The peak of a stack -/

/-- How deep the rows in an open node nest so far. -/
def OpenNode.height : OpenNode → Nat
  | element _ children => Node.nestingOf true children
  | block _ children inverse =>
    max (Node.nestingOf true children) (Node.nestingOfInverse true inverse)

namespace OpenNode

theorem height_push (node : OpenNode) (child : Node) :
    (node.push child).height = max node.height (child.nesting true) := by
  match node with
  | element tag children => exact Node.nestingOf_push true children child
  | block expression children none => simp [push, height, Node.nestingOf_push, Node.nestingOfInverse]
  | block expression children (some inverse) =>
    simp [push, height, Node.nestingOf_push, Node.nestingOfInverse, Nat.max_assoc]

/-- An open node is one level of its own. -/
theorem nesting_close {node : OpenNode} (h : node.Regular) :
    node.close.nesting true = node.height + 1 := by
  match node, h with
  | element tag children, h => simp [close, Node.nesting, height, h.1, Node.nestingOf_reverse]
  | block expression children none, h =>
    simp [close, Node.nesting, height, Node.nestingOf_reverse, Node.nestingOfInverse]
  | block expression children (some inverse), h =>
    simp [close, Node.nesting, height, Node.nestingOf_reverse, Node.nestingOfInverse]

end OpenNode

namespace OpenStack

/-- How deep the rows of a stack nest, innermost first. -/
def heights (s : OpenStack) : List Nat :=
  s.nodes.map OpenNode.height ++ [Node.nestingOf true s.root]

/-- How deep the tree nests so far. -/
def peak (s : OpenStack) : Nat :=
  peakOf s.heights

variable {limit : Nat} {s s' : OpenStack}

theorem length_heights (s : OpenStack) : s.heights.length = s.depth + 1 := by
  simp [heights, depth]

theorem depth_le_peak (s : OpenStack) : s.depth ≤ s.peak := by
  have hlength := length_le_peakOf s.heights
  rw [length_heights] at hlength
  exact Nat.le_of_succ_le_succ hlength

/-- When all nodes are closed, the peak is the depth of the tree. -/
theorem peak_of_closed (h : s.nodes = []) : s.peak = Node.nestingOf true s.root := by
  simp [peak, heights, h, peakOf]

theorem heights_push (s : OpenStack) (node : Node) :
    (s.push node).heights = raise (node.nesting true) s.heights := by
  obtain ⟨maxDepth, root, nodes⟩ := s
  match nodes with
  | [] => simp [OpenStack.push, heights, raise, Node.nestingOf_push]
  | top :: outer => simp [OpenStack.push, heights, raise, OpenNode.height_push]

theorem peak_push (s : OpenStack) {node : Node} (hflat : node.nesting true = 0) :
    (s.push node).peak = s.peak := by
  rw [peak, heights_push, hflat, raise_zero, peak]

theorem peak_openNode {node : OpenNode} (hnode : node.height = 0)
    (hopen : s.openNode node = .ok s') : s'.peak = max s.peak s'.depth := by
  unfold openNode at hopen
  by_cases hfull : s.maxDepth ≤ s.depth
  · rw [if_pos hfull] at hopen
    cases hopen
  · rw [if_neg hfull] at hopen
    cases hopen
    show peakOf (node.height :: s.heights) = max s.peak (s.depth + 1)
    rw [hnode, peakOf_open, length_heights, peak]

theorem peak_close (h : s.Regular limit) {top : OpenNode} {outer : List OpenNode}
    (hnodes : s.nodes = top :: outer) :
    (OpenStack.push { s with nodes := outer } top.close).peak = s.peak := by
  have htop : top.Regular := h.nodes top (by simp [hnodes])
  rw [peak, heights_push, OpenNode.nesting_close htop, peakOf_close _ (by simp [heights])]
  simp [peak, heights, hnodes]

/-- **A token raises the peak to the number of open nodes**, if it is less. -/
theorem peak_mergeToken (h : s.Regular limit) {token : Token} (hmerge : s.mergeToken token = .ok s') :
    s'.peak = max s.peak s'.depth := by
  -- without a node that opens, the number of open nodes does not count
  have hsame : s'.peak = s.peak → s'.peak = max s.peak s'.depth := by
    intro heq
    have hdepth := s'.depth_le_peak
    omega
  match token with
  | .text content | .comment content =>
    cases hmerge
    exact hsame (peak_push s rfl)
  | .startTag tag =>
    simp only [mergeToken, openElement] at hmerge
    by_cases hself : tag.selfClosing = true
    · rw [if_pos hself] at hmerge
      cases hmerge
      exact hsame (peak_push s (by simp [Node.nesting, Node.nestingOf, hself]))
    · rw [if_neg hself] at hmerge
      exact peak_openNode rfl hmerge
  | .endTag tag =>
    simp only [mergeToken, closeElement] at hmerge
    split at hmerge
    · rename_i start children outer hnodes
      split at hmerge
      · cases hmerge
        exact hsame (peak_close h hnodes)
      · cases hmerge
    · cases hmerge

/-- A block that goes on to its other part for the first time forgets nothing. -/
theorem peak_startInverse (honce : Operation.startInverse.InverseOnceAt s.blocks)
    (hstart : s.startInverse = .ok s') : s'.peak = s.peak := by
  unfold startInverse at hstart
  split at hstart
  · rename_i expression children inverse outer hnodes
    cases hstart
    have hinverse : inverse = none := by
      simpa [Operation.InverseOnceAt, blocks, hnodes, OpenNode.block?] using honce
    simp [peak, heights, hnodes, hinverse, OpenNode.height, Node.nestingOfInverse, Node.nestingOf]
  · cases hstart

theorem peak_leaveBlock (h : s.Regular limit) (hleave : s.leaveBlock = .ok s') :
    s'.peak = s.peak := by
  unfold leaveBlock at hleave
  split at hleave
  · rename_i expression children inverse outer hnodes
    cases hleave
    exact peak_close h hnodes
  · cases hleave

end OpenStack

namespace Assembly

variable {limit : Nat} {a b : Assembly}

/-- **The peak never goes down**, whatever is done and whether it fails or not, as long as no
block goes on to its other part twice. -/
theorem peak_apply_le (h : a.stack.Regular limit) {operation : Operation}
    (honce : operation.InverseOnceAt a.stack.blocks) :
    (a.apply operation).assembly.stack.Regular limit ∧
      a.stack.peak ≤ (a.apply operation).assembly.stack.peak := by
  refine @stack_apply (fun s => s.Regular limit ∧ a.stack.peak ≤ s.peak) ?_ ?_ ?_ ?_ a operation
    ?_ ⟨h, Nat.le_refl _⟩
  · intro s s' t hs hmerge
    rw [OpenStack.peak_mergeToken hs.1 hmerge]
    exact ⟨hs.1.mergeToken hmerge, hs.2.trans (Nat.le_max_left _ _)⟩
  · intro s m hs
    rw [OpenStack.peak_push s rfl]
    exact ⟨hs.1.push trivial, hs.2⟩
  · intro s s' expression hs hopen
    rw [OpenStack.peak_openNode rfl hopen]
    exact ⟨hs.1.openBlock hopen, hs.2.trans (Nat.le_max_left _ _)⟩
  · intro s s' hs hleave
    rw [OpenStack.peak_leaveBlock hs.1 hleave]
    exact ⟨hs.1.leaveBlock hleave, hs.2⟩
  · intro s' hoperation hstart
    rw [OpenStack.peak_startInverse (hoperation ▸ honce) hstart]
    exact ⟨h.startInverse hstart, Nat.le_refl _⟩

end Assembly

end TemplateTree
