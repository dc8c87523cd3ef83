/-
A canonical tree is read back as it was written.

What is left is an induction on the tree.  Between nodes the assembly is settled, and a
canonical node leaves it settled again, with the node added to its stack: an element or a
block opens a node there, its rows are added to that one, and what ends it finds it on top.
Rows of a canonical tree have no two texts side by side, so nothing in them is joined and
each row comes to be what it was.
-/
import TemplateTree.Proofs.Placing

namespace TemplateTree

/-! ### Rows on a stack -/

/-- A node is simply added where it joins nothing. -/
theorem Node.push_of_apart {row : List Node} {node : Node}
    (h : ∀ last ∈ row.head?, Apart last node) : push row node = node :: row := by
  unfold push
  split
  · rename_i last earlier content
    exact absurd ⟨rfl, rfl⟩ (h (.text last) (by simp))
  · rfl

/-- Nodes no two of which would be joined are simply added. -/
theorem Node.foldl_push_of_apart :
    ∀ (nodes row : List Node), nodes.IsChain Apart →
      (∀ last ∈ row.head?, ∀ first ∈ nodes.head?, Apart last first) →
      nodes.foldl push row = nodes.reverse ++ row := by
  intro nodes
  induction nodes with
  | nil => intro row _ _; rfl
  | cons node rest ih =>
    intro row hapart hrow
    have hpush : push row node = node :: row := push_of_apart fun last hlast =>
      hrow last hlast node (by simp)
    obtain ⟨hnext, hrest⟩ := List.isChain_cons.mp hapart
    rw [List.foldl_cons, hpush, ih (node :: row) hrest]
    · simp
    · intro last hlast first hfirst
      rw [← Option.mem_some_iff.mp hlast]
      exact hnext first hfirst

namespace OpenNode

/-- Adds a row of nodes to the row that is being filled. -/
def pushRow (node : OpenNode) (nodes : List Node) : OpenNode :=
  nodes.foldl (fun node child => node.push child) node

theorem pushRow_element (tag : StartTag) (nodes children : List Node) :
    (element tag children).pushRow nodes = element tag (nodes.foldl Node.push children) :=
  List.foldl_hom (element tag) fun _ _ => rfl

theorem pushRow_block (expression : Expression) (nodes children : List Node) :
    (block expression children none).pushRow nodes =
      block expression (nodes.foldl Node.push children) none :=
  List.foldl_hom (block expression · none) fun _ _ => rfl

theorem pushRow_inverse (expression : Expression) (children nodes inverse : List Node) :
    (block expression children (some inverse)).pushRow nodes =
      block expression children (some (nodes.foldl Node.push inverse)) :=
  List.foldl_hom (block expression children <| some ·) fun _ _ => rfl

end OpenNode

namespace OpenStack

/-- Adds a row of nodes to the innermost open one. -/
def pushRow (s : OpenStack) (nodes : List Node) : OpenStack :=
  nodes.foldl push s

theorem pushRow_open {s : OpenStack} {outer : List OpenNode} (nodes : List Node) (top : OpenNode) :
    pushRow { s with nodes := top :: outer } nodes =
      { s with nodes := top.pushRow nodes :: outer } := by
  refine List.foldl_hom (fun top : OpenNode => { s with nodes := top :: outer }) ?_
  intro top node
  rfl

theorem pushRow_root {s : OpenStack} (h : s.nodes = []) (nodes : List Node) :
    s.pushRow nodes = { s with root := nodes.foldl Node.push s.root } := by
  refine List.foldl_hom (fun root : List Node => { s with root }) ?_
  intro root node
  simp only [push, h]

end OpenStack

/-! ### Nodes -/

theorem Lexer.IsTagName.isLower {name : String} (h : IsTagName name) : IsLower name :=
  h.spells.2

namespace OpenStack

variable {s : OpenStack}

theorem openElement_of_isLower {tag : StartTag} (h : IsLower tag.name) :
    s.openElement tag =
      if tag.selfClosing then .ok (s.push (.element tag [])) else s.openNode (.element tag []) := by
  have hlower : asciiLower tag.name = tag.name := h
  unfold openElement
  rw [hlower]

theorem openNode_of_room (h : s.depth < s.maxDepth) (node : OpenNode) :
    s.openNode node = .ok { s with nodes := node :: s.nodes } :=
  if_neg (by omega)

theorem closeElement_top (tag : StartTag) (children : List Node) :
    closeElement { s with nodes := .element tag children :: s.nodes } tag.name =
      .ok (s.push (.element tag children.reverse)) := by
  simp [closeElement, sameIgnoringCase, OpenNode.close]

end OpenStack

namespace Assembly

variable {a : Assembly} {s : OpenStack}

/-- A row is added to whatever node is open, as long as that lies right on this stack. -/
def TakesRow (s : OpenStack) (nodes : List Node) : Prop :=
  ∀ (top : OpenNode) {a : Assembly}, Settled a { s with nodes := top :: s.nodes } →
    ∃ b, a.Takes (Node.eventsOf nodes) b ∧
      Settled b { s with nodes := top.pushRow nodes :: s.nodes }

theorem takesRow_of_room {nodes : List Node}
    (h : ∀ {a : Assembly} {s : OpenStack}, Settled a s →
      s.depth + Node.nestingOf true nodes ≤ s.maxDepth →
        ∃ b, a.Takes (Node.eventsOf nodes) b ∧ Settled b (s.pushRow nodes))
    (hroom : s.depth + 1 + Node.nestingOf true nodes ≤ s.maxDepth) : TakesRow s nodes := by
  intro top a hs
  rw [← OpenStack.pushRow_open]
  exact h hs (by simpa [OpenStack.depth] using hroom)

/-- **An element with its children** is added to the stack. -/
theorem takes_element (hs : Settled a s) (hroom : s.depth < s.maxDepth) {tag : StartTag}
    (htag : tag.Canonical) (hself : tag.selfClosing = false) {children : List Node}
    (hapart : children.IsChain Node.Apart) (hrow : TakesRow s children) :
    ∃ b, a.Takes (tag.events ++ (Node.eventsOf children ++ endTagEvents tag.name)) b ∧
      Settled b (s.push (.element tag children)) := by
  have hopen : s.openElement tag = .ok { s with nodes := .element tag [] :: s.nodes } := by
    rw [OpenStack.openElement_of_isLower htag.name.isLower, hself,
      ← OpenStack.openNode_of_room hroom]
    rfl
  obtain ⟨b, hchildren, hb⟩ := hrow (.element tag []) (.flushed _)
  rw [OpenNode.pushRow_element, Node.foldl_push_of_apart children [] hapart (by simp),
    List.append_nil] at hb
  have hclose := @OpenStack.closeElement_top s tag children.reverse
  rw [List.reverse_reverse] at hclose
  exact ⟨_, (takes_startTag hs htag hopen).append
    (hchildren.append (takes_endTag hb htag.name hclose)), .flushed _⟩

/-- **A block with its rows** is added to the stack. -/
theorem takes_block (hs : Settled a s) (hroom : s.depth < s.maxDepth) (e : Expression)
    {children : List Node} (hapart : children.IsChain Node.Apart) (hrow : TakesRow s children)
    {inverse : Option (List Node)}
    (hinverse : ∀ nodes ∈ inverse, nodes.IsChain Node.Apart ∧ TakesRow s nodes) :
    ∃ b, a.Takes (Node.block e children inverse).events b ∧
      Settled b (s.push (.block e children inverse)) := by
  have hopen : s.openBlock e = .ok { s with nodes := .block e [] none :: s.nodes } :=
    OpenStack.openNode_of_room hroom _
  obtain ⟨b, hchildren, hb⟩ := hrow (.block e [] none) (.flushed _)
  rw [OpenNode.pushRow_block, Node.foldl_push_of_apart children [] hapart (by simp),
    List.append_nil] at hb
  rw [Node.events]
  match inverse, hinverse with
  | none, _ =>
    have hleave : OpenStack.leaveBlock { s with nodes := .block e children.reverse none :: s.nodes } =
        .ok (s.push (.block e children none)) := by
      simp [OpenStack.leaveBlock, OpenNode.close]
    exact ⟨_, (takes_opening hs hopen).cons (hchildren.append (takes_closing hb e.path hleave)),
      .flushed _⟩
  | some nodes, hinverse =>
    obtain ⟨hapart', hrow'⟩ := hinverse nodes rfl
    have hstart : OpenStack.startInverse
        { s with nodes := .block e children.reverse none :: s.nodes } =
          .ok { s with nodes := .block e children.reverse (some []) :: s.nodes } := rfl
    obtain ⟨c, hnodes, hc⟩ := hrow' (.block e children.reverse (some [])) (.flushed _)
    rw [OpenNode.pushRow_inverse, Node.foldl_push_of_apart nodes [] hapart' (by simp),
      List.append_nil] at hc
    have hleave : OpenStack.leaveBlock
        { s with nodes := .block e children.reverse (some nodes.reverse) :: s.nodes } =
          .ok (s.push (.block e children (some nodes))) := by
      simp [OpenStack.leaveBlock, OpenNode.close]
    exact ⟨_, (takes_opening hs hopen).cons (hchildren.append ((takes_otherwise hb hstart).cons
      (hnodes.append (takes_closing hc e.path hleave)))), .flushed _⟩

mutual

/-- **A canonical node is added to the stack as it was written.** -/
theorem takes_node {node : Node} (h : node.Canonical) {a : Assembly} {s : OpenStack}
    (hs : Settled a s) (hroom : s.depth + node.nesting true ≤ s.maxDepth) :
    ∃ b, a.Takes node.events b ∧ Settled b (s.push node) := by
  match node, h with
  | .text content, h => exact takes_content hs h.1 h.2.1
  | .comment content, h => exact ⟨_, takes_comment hs h.1, .flushed _⟩
  | .mustache m, h => exact ⟨_, takes_mustache hs m, .flushed _⟩
  | .element tag children, h =>
    obtain ⟨⟨htag, hchildren⟩, hrow, hapart⟩ := h
    rw [Node.events]
    by_cases hself : tag.selfClosing = true
    · rw [if_pos hself, hchildren hself]
      have hopen : s.openElement tag = .ok (s.push (.element tag [])) := by
        rw [OpenStack.openElement_of_isLower htag.name.isLower, if_pos hself]
      exact ⟨_, takes_startTag hs htag hopen, .flushed _⟩
    · rw [if_neg hself]
      rw [Bool.not_eq_true] at hself
      simp only [Node.nesting, hself, Bool.not_false, Bool.and_self, if_true] at hroom
      exact takes_element hs (by omega) htag hself hapart
        (takesRow_of_room (fun hs' hroom' => takes_row hrow hs' hroom') (by omega))
  | .block e children inverse, h =>
    obtain ⟨-, ⟨hrow, hapart⟩, hinverse⟩ := h
    simp only [Node.nesting] at hroom
    refine takes_block hs (by omega) e hapart
      (takesRow_of_room (fun hs' hroom' => takes_row hrow hs' hroom') (by omega)) ?_
    match inverse, hinverse with
    | none, _ => simp
    | some nodes, hinverse =>
      intro nodes' hmem
      simp only [Node.nestingOfInverse] at hroom
      rw [← Option.mem_some_iff.mp hmem]
      exact ⟨hinverse.2,
        takesRow_of_room (fun hs' hroom' => takes_row hinverse.1 hs' hroom') (by omega)⟩

/-- A canonical row is added to the stack node by node. -/
theorem takes_row {nodes : List Node} (h : Node.AllCanonical nodes) {a : Assembly} {s : OpenStack}
    (hs : Settled a s) (hroom : s.depth + Node.nestingOf true nodes ≤ s.maxDepth) :
    ∃ b, a.Takes (Node.eventsOf nodes) b ∧ Settled b (s.pushRow nodes) := by
  match nodes, h with
  | [], _ => exact ⟨a, takes_nil a, hs⟩
  | node :: rest, h =>
    simp only [Node.nestingOf] at hroom
    obtain ⟨b, hfirst, hb⟩ := takes_node h.1 hs (by omega)
    obtain ⟨c, hrest, hc⟩ := takes_row h.2 hb (by simp; omega)
    exact ⟨c, hfirst.append hrest, hc⟩

end

/-- A settled assembly with nothing open has its tree. -/
theorem finish_of_settled (hs : Settled a s) (hnodes : s.nodes = []) :
    a.finish = .ok s.root.reverse := by
  simp [finish, flushText_of_settled hs, OpenStack.depth, hnodes]

end Assembly

/-- **A canonical tree is read back as it was written**, if it nests within the limits:
the source that the standard style makes of it has exactly this tree. -/
theorem preprocess_render {nodes : List Node} {limit maxDepth : Nat}
    (h : Node.CanonicalRow nodes) (hlimit : Node.nestingOf false nodes ≤ limit)
    (hdepth : Node.nestingOf true nodes ≤ maxDepth) :
    preprocess (render .standard nodes) limit maxDepth = .ok nodes := by
  have hspelled : Event.spelled (Node.eventsOf nodes) = render .standard nodes :=
    Node.spelled_eventsOf nodes
  have hshape : Shape.Kept limit [] (Node.eventsOf nodes) :=
    Node.kept_eventsOf nodes (by simpa using hlimit)
  obtain ⟨b, htakes, hb⟩ := @Assembly.takes_row nodes h.1 (Assembly.fresh maxDepth) { maxDepth }
    (.flushed _) (by simpa [OpenStack.depth] using hdepth)
  rw [OpenStack.pushRow_root rfl, Node.foldl_push_of_apart nodes [] h.2 (by simp)] at hb
  rw [← hspelled, preprocess_spelled (Node.legible_eventsOf h.1) hshape, htakes]
  show b.finish = _
  rw [Assembly.finish_of_settled hb rfl]
  simp

/-- A block with both of its parts, an expression in the value of an attribute and one
that applies to the tag, and a comment that ends in a dash. -/
theorem preprocess_render_of_block :
    ∃ nodes : List Node,
      nodes =
          [.block ⟨"if", [.number (.finite false (2 ^ 52) (-52))], []⟩
            [.element ⟨⟨"p", [⟨"id", [.text "a", .mustache ⟨⟨"x", [], []⟩, true⟩]⟩]⟩, false,
              [⟨⟨"y", [], [("k", .string "\x7d")]⟩, false⟩]⟩ [.text "b"]]
            (some [.comment "-"])] ∧
        Node.CanonicalRow nodes ∧ Node.nestingOf false nodes ≤ 1 ∧ Node.nestingOf true nodes ≤ 2 ∧
        preprocess (render .standard nodes) 1 2 = .ok nodes := by
  have hword : ∀ name ∈ ["if", "x", "y", "k"], IsWord name := by
    intro name hmem
    simp only [List.mem_cons, List.not_mem_nil, or_false] at hmem
    rcases hmem with rfl | rfl | rfl | rfl
    · exact ⟨'i', ['f'], rfl, by decide, List.all_eq_true.mp (by decide)⟩
    · exact ⟨'x', [], rfl, by decide, by simp⟩
    · exact ⟨'y', [], rfl, by decide, by simp⟩
    · exact ⟨'k', [], rfl, by decide, by simp⟩
  have hif : Expression.Plain false ⟨"if", [.number (.finite false (2 ^ 52) (-52))], []⟩ := by
    refine ⟨hword _ (by simp), by decide, ?_, by simp⟩
    intro param hmem
    rw [List.mem_singleton.mp hmem]
    exact ⟨by decide, by decide, by decide, Or.inl (by decide)⟩
  have hx : Expression.Plain false ⟨"x", [], []⟩ :=
    ⟨hword _ (by simp), by decide, by simp, by simp⟩
  have hy : Mustache.Plain ⟨⟨"y", [], [("k", .string "\x7d")]⟩, false⟩ := by
    refine ⟨hword _ (by simp), by decide, by simp, ?_⟩
    intro entry hmem
    rw [List.mem_singleton.mp hmem]
    exact ⟨hword _ (by simp), by simp [Unmarked], by decide⟩
  have hid : Attribute.Canonical ⟨"id", [.text "a", .mustache ⟨⟨"x", [], []⟩, true⟩]⟩ := by
    refine ⟨by decide, by simp [isNameChar, isMarkupSpace], ?_, by simp [Fragment.Apart, Fragment.isText, Fragment.text?]⟩
    intro f hmem
    simp only [List.mem_cons, List.not_mem_nil, or_false] at hmem
    rcases hmem with rfl | rfl
    · exact ⟨by decide, by decide, by decide⟩
    · exact hx
  have hp : StartTag.Canonical ⟨⟨"p", [⟨"id", [.text "a", .mustache ⟨⟨"x", [], []⟩, true⟩]⟩]⟩, false,
      [⟨⟨"y", [], [("k", .string "\x7d")]⟩, false⟩]⟩ :=
    ⟨⟨'p', [], rfl, by decide, by simp⟩, by decide, by simpa using hid, by simpa using hy⟩
  have hcomment : Lexer.IsCommentText "-" := ⟨by decide, by decide, by decide⟩
  have hbody : Node.CanonicalRow [.text "b"] :=
    ⟨⟨⟨by decide, by decide, by decide⟩, trivial⟩, .singleton _⟩
  have hcanonical : Node.CanonicalRow
      [.block ⟨"if", [.number (.finite false (2 ^ 52) (-52))], []⟩
        [.element ⟨⟨"p", [⟨"id", [.text "a", .mustache ⟨⟨"x", [], []⟩, true⟩]⟩]⟩, false,
          [⟨⟨"y", [], [("k", .string "\x7d")]⟩, false⟩]⟩ [.text "b"]]
        (some [.comment "-"])] :=
    ⟨⟨⟨hif, ⟨⟨⟨⟨hp, by simp⟩, hbody⟩, trivial⟩, .singleton _⟩,
      ⟨⟨⟨hcomment, by decide⟩, trivial⟩, .singleton _⟩⟩, trivial⟩, .singleton _⟩
  exact ⟨_, rfl, hcanonical, by decide, by decide,
    preprocess_render hcanonical (by decide) (by decide)⟩

end TemplateTree
