/-
What every stack keeps to.

However a stack came about, no row on it has two texts side by side, an element is open
only if it does not end itself, and no more nodes are open than may be.  Nothing is asked of
the tokens, of the lexers at the side of the stack, or of the steps before, which may all
have failed.

`Assembly.stack_apply` is the induction behind that: what the few steps on a stack preserve,
everything that can be done to an assembly preserves.
-/
import TemplateTree.Proofs.Composition

namespace TemplateTree

/-! ### Rows without neighbouring texts -/

namespace Node

mutual

/-- A node in which no row, at any level, has two texts side by side. -/
def Joined : Node → Prop
  | .element _ children => AllJoined children ∧ children.IsChain Apart
  | .block _ children inverse =>
    (AllJoined children ∧ children.IsChain Apart) ∧ InverseJoined inverse
  | .text _ | .comment _ | .mustache _ => True

/-- Nodes each of which is joined. -/
def AllJoined : List Node → Prop
  | [] => True
  | node :: rest => Joined node ∧ AllJoined rest

/-- The same for the row for the other case, if there is one. -/
def InverseJoined : Option (List Node) → Prop
  | none => True
  | some nodes => AllJoined nodes ∧ nodes.IsChain Apart

end

/-- A row of nodes in which no row, at any level, has two texts side by side. -/
def JoinedRow (nodes : List Node) : Prop :=
  AllJoined nodes ∧ nodes.IsChain Apart

theorem allJoined_iff {nodes : List Node} : AllJoined nodes ↔ ∀ node ∈ nodes, node.Joined := by
  induction nodes with
  | nil => simp [AllJoined]
  | cons node rest ih => simp [AllJoined, ih]

namespace JoinedRow

variable {nodes : List Node}

theorem nil : JoinedRow [] :=
  ⟨trivial, .nil⟩

theorem reverse (h : JoinedRow nodes) : JoinedRow nodes.reverse := by
  refine ⟨?_, isChain_reverse h.2⟩
  rw [allJoined_iff]
  intro node hmem
  exact allJoined_iff.mp h.1 node (List.mem_reverse.mp hmem)

theorem push (h : JoinedRow nodes) {node : Node} (hnode : node.Joined) :
    JoinedRow (Node.push nodes node) := by
  refine ⟨?_, isChain_push h.2 node⟩
  unfold Node.push
  split
  · exact ⟨trivial, h.1.2⟩
  · exact ⟨hnode, h.1⟩

end JoinedRow

end Node

/-! ### What every stack keeps to -/

/-- An element is open only if it does not end itself, and no row in an open node has two texts
side by side. -/
def OpenNode.Regular : OpenNode → Prop
  | element tag children => tag.selfClosing = false ∧ Node.JoinedRow children
  | block _ children inverse =>
    Node.JoinedRow children ∧ ∀ nodes ∈ inverse, Node.JoinedRow nodes

namespace OpenNode.Regular

variable {node : OpenNode}

theorem push (h : node.Regular) {child : Node} (hchild : child.Joined) :
    (node.push child).Regular := by
  match node, h with
  | element tag children, h => exact ⟨h.1, h.2.push hchild⟩
  | block expression children none, h => exact ⟨h.1.push hchild, by simp⟩
  | block expression children (some inverse), h =>
    exact ⟨h.1, by simpa using (h.2 inverse rfl).push hchild⟩

theorem close (h : node.Regular) : node.close.Joined := by
  match node, h with
  | element tag children, h => exact h.2.reverse
  | block expression children none, h => exact ⟨h.1.reverse, trivial⟩
  | block expression children (some inverse), h => exact ⟨h.1.reverse, (h.2 inverse rfl).reverse⟩

end OpenNode.Regular

namespace OpenStack

/-- A stack of regular nodes, no more of them than may be. -/
structure Regular (limit : Nat) (s : OpenStack) : Prop where
  maxDepth : s.maxDepth = limit
  depth : s.depth ≤ limit
  root : Node.JoinedRow s.root
  nodes : ∀ node ∈ s.nodes, node.Regular

namespace Regular

variable {limit : Nat} {s s' : OpenStack}

theorem empty (limit : Nat) : Regular limit { maxDepth := limit } :=
  ⟨rfl, Nat.zero_le _, .nil, by simp⟩

theorem push (h : s.Regular limit) {node : Node} (hnode : node.Joined) :
    (s.push node).Regular limit := by
  refine ⟨by rw [maxDepth_push, h.maxDepth], by rw [depth_push]; exact h.depth, ?_, ?_⟩
  · unfold OpenStack.push
    split
    · exact h.root.push hnode
    · exact h.root
  · unfold OpenStack.push
    split
    · exact h.nodes
    · rename_i top outer hnodes
      obtain ⟨htop, houter⟩ := List.forall_mem_cons.mp (hnodes ▸ h.nodes)
      exact List.forall_mem_cons.mpr ⟨htop.push hnode, houter⟩

theorem openNode (h : s.Regular limit) {node : OpenNode} (hnode : node.Regular)
    (hopen : s.openNode node = .ok s') : s'.Regular limit := by
  unfold OpenStack.openNode at hopen
  by_cases hfull : s.maxDepth ≤ s.depth
  · rw [if_pos hfull] at hopen
    cases hopen
  · rw [if_neg hfull] at hopen
    cases hopen
    have hroom : s.depth + 1 ≤ limit := by
      have hmax := h.maxDepth
      omega
    exact ⟨h.maxDepth, hroom, h.root, List.forall_mem_cons.mpr ⟨hnode, h.nodes⟩⟩

/-- A node that is closed goes to the row around it. -/
theorem close (h : s.Regular limit) {top : OpenNode} {outer : List OpenNode}
    (hnodes : s.nodes = top :: outer) :
    (OpenStack.push { s with nodes := outer } top.close).Regular limit := by
  obtain ⟨htop, houter⟩ := List.forall_mem_cons.mp (hnodes ▸ h.nodes)
  have hdepth : outer.length ≤ limit := by
    have hle := h.depth
    rw [OpenStack.depth, hnodes, List.length_cons] at hle
    omega
  have hrest : Regular limit { s with nodes := outer } := ⟨h.maxDepth, hdepth, h.root, houter⟩
  exact hrest.push htop.close

/-- **Any token keeps a stack regular.** -/
theorem mergeToken (h : s.Regular limit) {token : Token} (hmerge : s.mergeToken token = .ok s') :
    s'.Regular limit := by
  match token with
  | .text content | .comment content =>
    cases hmerge
    exact h.push trivial
  | .startTag tag =>
    simp only [OpenStack.mergeToken, OpenStack.openElement] at hmerge
    by_cases hself : tag.selfClosing = true
    · rw [if_pos hself] at hmerge
      cases hmerge
      exact h.push ⟨trivial, .nil⟩
    · rw [if_neg hself] at hmerge
      have hnode : (OpenNode.element { tag with name := asciiLower tag.name } []).Regular :=
        ⟨Bool.eq_false_iff.mpr hself, .nil⟩
      exact h.openNode hnode hmerge
  | .endTag tag =>
    simp only [OpenStack.mergeToken, OpenStack.closeElement] at hmerge
    split at hmerge
    · rename_i start children outer hnodes
      split at hmerge
      · cases hmerge
        exact h.close hnodes
      · cases hmerge
    · cases hmerge

theorem openBlock (h : s.Regular limit) {expression : Expression}
    (hopen : s.openBlock expression = .ok s') : s'.Regular limit := by
  have hnode : (OpenNode.block expression [] none).Regular := ⟨.nil, by simp⟩
  exact h.openNode hnode hopen

theorem startInverse (h : s.Regular limit) (hstart : s.startInverse = .ok s') :
    s'.Regular limit := by
  unfold OpenStack.startInverse at hstart
  split at hstart
  · rename_i expression children inverse outer hnodes
    cases hstart
    obtain ⟨htop, houter⟩ := List.forall_mem_cons.mp (hnodes ▸ h.nodes)
    have hdepth := h.depth
    rw [OpenStack.depth, hnodes] at hdepth
    refine ⟨h.maxDepth, hdepth, h.root, List.forall_mem_cons.mpr ⟨⟨htop.1, ?_⟩, houter⟩⟩
    simp [Node.JoinedRow.nil]
  · cases hstart

theorem leaveBlock (h : s.Regular limit) (hleave : s.leaveBlock = .ok s') : s'.Regular limit := by
  unfold OpenStack.leaveBlock at hleave
  split at hleave
  · rename_i expression children inverse outer hnodes
    cases hleave
    exact h.close hnodes
  · cases hleave

end Regular

/-- The stack after an operation with a lexer at its side, whether it fails or not. -/
def after (s : OpenStack) (call : Lexer × Operation) : OpenStack :=
  (Assembly.apply ⟨call.1, s⟩ call.2).assembly.stack

end OpenStack

namespace Assembly

/-- Between nodes an expression goes to the stack, and nowhere else. -/
theorem stack_mergeMustache (a : Assembly) (m : Mustache) :
    (a.mergeMustache m).assembly.stack =
      if a.lexer.state = .data then a.flushText.stack.push (.mustache m) else a.flushText.stack := by
  have hstate := (lexer_flushText a).1
  rw [mergeMustache]
  by_cases hdata : a.lexer.state = .data
  · rw [if_pos hdata]
    simp only [placeMustache, hstate, hdata]
  · rw [if_neg hdata]
    split
    · rename_i placed hplace
      cases places_of_placeMustache hplace with
      | node hnode => exact absurd (hstate ▸ hnode) hdata
      | _ => rfl
    · rfl

/-- What every token preserves, a row of tokens preserves, as far as it gets. -/
theorem stack_mergeTokens {Holds : OpenStack → Prop}
    (htoken : ∀ {s s' : OpenStack} {t : Token}, Holds s → s.mergeToken t = .ok s' → Holds s')
    (tokens : List Token) :
    ∀ {a : Assembly}, Holds a.stack → Holds (a.mergeTokens tokens).assembly.stack := by
  induction tokens with
  | nil => intro a h; exact h
  | cons token rest ih =>
    intro a h
    have hfirst : Holds (a.mergeToken token).assembly.stack :=
      stack_ofStack h (a.stack.keeps_mergeToken token) fun _ => htoken h
    rw [mergeTokens, Outcome.andThen]
    split
    · exact ih hfirst
    · exact hfirst

theorem stack_flushText {Holds : OpenStack → Prop}
    (htoken : ∀ {s s' : OpenStack} {t : Token}, Holds s → s.mergeToken t = .ok s' → Holds s')
    {a : Assembly} (h : Holds a.stack) : Holds a.flushText.stack := by
  unfold flushText
  split
  · exact htoken (t := .text _) h rfl
  · exact h

/-- What every step on a stack preserves, everything that can be done to it preserves, whether
it fails or not, and with any lexer at its side.  Of a step to the other part of a block it is
asked where it is taken only. -/
theorem stack_apply {Holds : OpenStack → Prop}
    (htoken : ∀ {s s' : OpenStack} {t : Token}, Holds s → s.mergeToken t = .ok s' → Holds s')
    (hmustache : ∀ {s : OpenStack} (m : Mustache), Holds s → Holds (s.push (.mustache m)))
    (hopen : ∀ {s s' : OpenStack} {expression : Expression}, Holds s →
      s.openBlock expression = .ok s' → Holds s')
    (hleave : ∀ {s s' : OpenStack}, Holds s → s.leaveBlock = .ok s' → Holds s')
    {a : Assembly} {operation : Operation}
    (hstart : ∀ {s' : OpenStack}, operation = .startInverse → a.stack.startInverse = .ok s' →
      Holds s')
    (h : Holds a.stack) :
    Holds (a.apply operation).assembly.stack := by
  have hflush : Holds a.flushText.stack := stack_flushText htoken h
  match operation with
  | .feed text =>
    rw [apply, feed_eq_mergeTokens]
    exact stack_mergeTokens htoken _ h
  | .token t => exact stack_ofStack h (a.stack.keeps_mergeToken t) fun _ => htoken h
  | .mustache m =>
    rw [apply, stack_mergeMustache]
    split
    · exact hmustache m hflush
    · exact hflush
  | .enterBlock expression =>
    rw [apply, enterBlock]
    split
    · exact stack_ofStack hflush (a.flushText.stack.keeps_openBlock expression)
        fun _ => hopen hflush
    · exact hflush
  | .flushText => exact hflush
  | .closeProgram =>
    rw [apply, closeProgram]
    split <;> exact hflush
  | .startInverse => exact stack_ofStack h a.stack.keeps_startInverse fun _ => hstart rfl
  | .leaveBlock => exact stack_ofStack h a.stack.keeps_leaveBlock fun _ => hleave h

end Assembly

/-- **Whatever is done to a stack, it stays regular.** -/
theorem OpenStack.Regular.after {limit : Nat} {s : OpenStack} (h : s.Regular limit)
    (call : Lexer × Operation) : (s.after call).Regular limit :=
  @Assembly.stack_apply (Regular limit) (fun h hmerge => h.mergeToken hmerge)
    (fun _ h => h.push trivial) (fun h hopen => h.openBlock hopen)
    (fun h hleave => h.leaveBlock hleave) ⟨call.1, s⟩ call.2 (fun _ hstart => h.startInverse hstart) h

end TemplateTree
