/-
The texts of a stack.

A text that is put on a stack is joined to the text at the end of the row that is being filled,
so a text of a tree may come about in several pieces.  `lastText` is what it would be joined to:
the text at the end of that row, or nothing if something else is there.  So the row then ends in
what was the last text, with the new one behind it, whether there was a last text or not.

Everything else that is done to a stack takes no text away and adds none, and leaves a row that
does not end in a text.
-/
import TemplateTree.Node.Query
import TemplateTree.Assembly.Operation

namespace TemplateTree

/-! ### Rows -/

namespace Node

/-- The text that a row ends in, or nothing.  The row is newest first. -/
def lastText : List Node → String
  | .text content :: _ => content
  | _ => ""

/-- All texts of a row, at any level, are good. -/
def TextsOf (Good : String → Prop) (nodes : List Node) : Prop :=
  ∀ content, .text content ∈ descendantsOf nodes → Good content

theorem mem_descendantsOf {node : Node} {nodes : List Node} :
    node ∈ descendantsOf nodes ↔ ∃ top ∈ nodes, node ∈ top.withDescendants := by
  induction nodes with
  | nil => simp [descendantsOf]
  | cons top rest ih => simp [descendantsOf, ih]

variable {Good : String → Prop} {row : List Node} {node : Node}

theorem lastText_push_text (row : List Node) (content : String) :
    lastText (push row (.text content)) = lastText row ++ content := by
  match row with
  | .text last :: earlier => rfl
  | [] | .element .. :: _ | .block .. :: _ | .comment _ :: _ | .mustache _ :: _ =>
    exact String.empty_append.symm

theorem lastText_cons (h : node.isText = false) (row : List Node) :
    lastText (node :: row) = "" := by
  match node with
  | .text content => cases h
  | .element .. | .block .. | .comment _ | .mustache _ => rfl

namespace TextsOf

theorem nil : TextsOf Good [] := by
  intro content hmem
  cases hmem

theorem cons (h : TextsOf Good row) (hnode : TextsOf Good [node]) :
    TextsOf Good (node :: row) := by
  intro content hmem
  obtain ⟨top, htop, hcontent⟩ := mem_descendantsOf.mp hmem
  rcases List.mem_cons.mp htop with rfl | hrow
  · exact hnode content (mem_descendantsOf.mpr ⟨top, by simp, hcontent⟩)
  · exact h content (mem_descendantsOf.mpr ⟨top, hrow, hcontent⟩)

theorem tail (h : TextsOf Good (node :: row)) : TextsOf Good row := by
  intro content hmem
  exact h content (by simp [descendantsOf, hmem])

theorem reverse (h : TextsOf Good row) : TextsOf Good row.reverse := by
  intro content hmem
  obtain ⟨top, htop, hcontent⟩ := mem_descendantsOf.mp hmem
  exact h content (mem_descendantsOf.mpr ⟨top, List.mem_reverse.mp htop, hcontent⟩)

theorem text {content : String} (h : Good content) : TextsOf Good [.text content] := by
  intro text hmem
  have heq : text = content := by simpa [descendantsOf, withDescendants] using hmem
  rw [heq]
  exact h

theorem element {tag : StartTag} (h : TextsOf Good row) : TextsOf Good [.element tag row] := by
  intro content hmem
  exact h content (by simpa [descendantsOf, withDescendants] using hmem)

theorem block {expression : Expression} {inverse : Option (List Node)} (h : TextsOf Good row)
    (hinverse : ∀ nodes ∈ inverse, TextsOf Good nodes) :
    TextsOf Good [.block expression row inverse] := by
  intro content hmem
  have hrows : .text content ∈ descendantsOf row ++ descendantsOfInverse inverse := by
    simpa [descendantsOf, withDescendants] using hmem
  rcases List.mem_append.mp hrows with hrow | hother
  · exact h content hrow
  · match inverse with
    | none => cases hother
    | some nodes => exact hinverse nodes rfl content hother

theorem comment (content : String) : TextsOf Good [.comment content] := by
  intro text hmem
  simp [descendantsOf, withDescendants] at hmem

theorem mustache (m : Mustache) : TextsOf Good [.mustache m] := by
  intro text hmem
  simp [descendantsOf, withDescendants] at hmem

theorem good_lastText (h : TextsOf Good row) (hempty : Good "") : Good (lastText row) := by
  unfold lastText
  split
  · exact h _ (by simp [descendantsOf, withDescendants])
  · exact hempty

/-- A text is good if it is so behind the last one. -/
theorem push_text (h : TextsOf Good row) {content : String} (hjoin : Good (lastText row ++ content)) :
    TextsOf Good (push row (.text content)) := by
  rw [← lastText_push_text] at hjoin
  unfold push at hjoin ⊢
  split at hjoin
  · exact h.tail.cons (text hjoin)
  · exact h.cons (text hjoin)

end TextsOf

end Node

/-! ### Open nodes -/

namespace OpenNode

/-- The row that is being filled. -/
def row : OpenNode → List Node
  | element _ children => children
  | block _ children none => children
  | block _ _ (some inverse) => inverse

/-- All texts in an open node are good. -/
def Texts (Good : String → Prop) : OpenNode → Prop
  | element _ children => Node.TextsOf Good children
  | block _ children inverse =>
    Node.TextsOf Good children ∧ ∀ nodes ∈ inverse, Node.TextsOf Good nodes

variable {Good : String → Prop} {node : OpenNode}

theorem row_push (node : OpenNode) (child : Node) :
    (node.push child).row = Node.push node.row child := by
  match node with
  | element .. | block _ _ none | block _ _ (some _) => rfl

theorem isText_close (node : OpenNode) : node.close.isText = false := by
  match node with
  | element .. | block .. => rfl

namespace Texts

theorem row (h : node.Texts Good) : Node.TextsOf Good node.row := by
  match node, h with
  | element tag children, h => exact h
  | block expression children none, h => exact h.1
  | block expression children (some inverse), h => exact h.2 inverse rfl

theorem push (h : node.Texts Good) {child : Node}
    (hrow : Node.TextsOf Good (Node.push node.row child)) : (node.push child).Texts Good := by
  match node, h with
  | element tag children, h => exact hrow
  | block expression children none, h => exact ⟨hrow, by simp⟩
  | block expression children (some inverse), h =>
    exact ⟨h.1, fun nodes hnodes => Option.some.inj hnodes ▸ hrow⟩

theorem close (h : node.Texts Good) : Node.TextsOf Good [node.close] := by
  match node, h with
  | element tag children, h => exact .element h.reverse
  | block expression children none, h => exact .block h.1.reverse (by simp)
  | block expression children (some inverse), h =>
    exact .block h.1.reverse (by simpa using (h.2 inverse rfl).reverse)

end Texts

end OpenNode

/-! ### Stacks -/

namespace OpenStack

/-- The row that is being filled. -/
def row (s : OpenStack) : List Node :=
  match s.nodes with
  | [] => s.root
  | top :: _ => top.row

/-- The text that the next one would be joined to, or nothing. -/
def lastText (s : OpenStack) : String :=
  Node.lastText s.row

/-- All texts on a stack are good. -/
structure Texts (Good : String → Prop) (s : OpenStack) : Prop where
  root : Node.TextsOf Good s.root
  nodes : ∀ node ∈ s.nodes, node.Texts Good

/-- All texts on a stack are good, and the row that is being filled does not end in one. -/
structure TextsEnd (Good : String → Prop) (s : OpenStack) : Prop extends s.Texts Good where
  ends : s.lastText = ""

variable {Good : String → Prop} {s s' : OpenStack} {node : Node}

theorem row_push (s : OpenStack) (node : Node) : (s.push node).row = Node.push s.row node := by
  obtain ⟨maxDepth, root, nodes⟩ := s
  match nodes with
  | [] => rfl
  | top :: outer => exact OpenNode.row_push top node

theorem lastText_push_text (s : OpenStack) (content : String) :
    (s.push (.text content)).lastText = s.lastText ++ content := by
  rw [lastText, row_push, Node.lastText_push_text, lastText]

namespace Texts

theorem empty (Good : String → Prop) (limit : Nat) : Texts Good { maxDepth := limit } :=
  ⟨.nil, by simp⟩

theorem row (h : s.Texts Good) : Node.TextsOf Good s.row := by
  unfold OpenStack.row
  split
  · exact h.root
  · rename_i top outer hnodes
    exact (h.nodes top (by simp [hnodes])).row

theorem push (h : s.Texts Good) (hrow : Node.TextsOf Good (Node.push s.row node)) :
    (s.push node).Texts Good := by
  obtain ⟨maxDepth, root, nodes⟩ := s
  match nodes with
  | [] => exact ⟨hrow, by simp [OpenStack.push]⟩
  | top :: outer =>
    obtain ⟨htop, houter⟩ := List.forall_mem_cons.mp h.nodes
    exact ⟨h.root, List.forall_mem_cons.mpr ⟨htop.push hrow, houter⟩⟩

/-- **A text goes behind the last one.** -/
theorem push_text (h : s.Texts Good) {content : String} (hjoin : Good (s.lastText ++ content)) :
    (s.push (.text content)).Texts Good :=
  h.push (h.row.push_text hjoin)

/-- **Another node ends the last text.** -/
theorem push_node (h : s.Texts Good) (hnode : Node.TextsOf Good [node])
    (htext : node.isText = false) : (s.push node).TextsEnd Good := by
  have hpush : Node.push s.row node = node :: s.row := Node.push_of_not_isText _ htext
  refine ⟨h.push (by rw [hpush]; exact h.row.cons hnode), ?_⟩
  rw [lastText, row_push, hpush, Node.lastText_cons htext]

theorem openNode (h : s.Texts Good) {node : OpenNode} (hrows : node.Texts Good)
    (hrow : node.row = []) (hopen : s.openNode node = .ok s') : s'.TextsEnd Good := by
  unfold OpenStack.openNode at hopen
  split at hopen
  · cases hopen
  · cases hopen
    refine ⟨⟨h.root, List.forall_mem_cons.mpr ⟨hrows, h.nodes⟩⟩, ?_⟩
    show Node.lastText node.row = ""
    rw [hrow]
    rfl

theorem close (h : s.Texts Good) {top : OpenNode} {outer : List OpenNode}
    (hnodes : s.nodes = top :: outer) :
    (OpenStack.push { s with nodes := outer } top.close).TextsEnd Good := by
  obtain ⟨htop, houter⟩ := List.forall_mem_cons.mp (hnodes ▸ h.nodes)
  have hrest : Texts Good { s with nodes := outer } := ⟨h.root, houter⟩
  exact hrest.push_node htop.close top.isText_close

/-- **A token that is no text ends the last one.** -/
theorem mergeToken (h : s.Texts Good) {token : Token} (htoken : ∀ content, token ≠ .text content)
    (hmerge : s.mergeToken token = .ok s') : s'.TextsEnd Good := by
  match token with
  | .text content => exact absurd rfl (htoken content)
  | .comment content =>
    cases hmerge
    exact h.push_node (.comment content) rfl
  | .startTag tag =>
    simp only [OpenStack.mergeToken, OpenStack.openElement] at hmerge
    split at hmerge
    · cases hmerge
      exact h.push_node (.element .nil) rfl
    · have hrows : (OpenNode.element { tag with name := asciiLower tag.name } []).Texts Good :=
        Node.TextsOf.nil
      exact h.openNode hrows rfl hmerge
  | .endTag tag =>
    simp only [OpenStack.mergeToken, OpenStack.closeElement] at hmerge
    split at hmerge
    · rename_i start children outer hnodes
      split at hmerge
      · cases hmerge
        exact h.close hnodes
      · cases hmerge
    · cases hmerge

theorem openBlock (h : s.Texts Good) {expression : Expression}
    (hopen : s.openBlock expression = .ok s') : s'.TextsEnd Good := by
  have hrows : (OpenNode.block expression [] none).Texts Good := ⟨.nil, by simp⟩
  exact h.openNode hrows rfl hopen

theorem startInverse (h : s.Texts Good) (hstart : s.startInverse = .ok s') :
    s'.TextsEnd Good := by
  unfold OpenStack.startInverse at hstart
  split at hstart
  · rename_i expression children inverse outer hnodes
    cases hstart
    obtain ⟨htop, houter⟩ := List.forall_mem_cons.mp (hnodes ▸ h.nodes)
    have hrows : (OpenNode.block expression children (some [])).Texts Good :=
      ⟨htop.1, by simp [Node.TextsOf.nil]⟩
    exact ⟨⟨h.root, List.forall_mem_cons.mpr ⟨hrows, houter⟩⟩, rfl⟩
  · cases hstart

theorem leaveBlock (h : s.Texts Good) (hleave : s.leaveBlock = .ok s') : s'.TextsEnd Good := by
  unfold OpenStack.leaveBlock at hleave
  split at hleave
  · rename_i expression children inverse outer hnodes
    cases hleave
    exact h.close hnodes
  · cases hleave

end Texts

end OpenStack

end TemplateTree
