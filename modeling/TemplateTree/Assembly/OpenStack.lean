/-
The stack of open nodes.

Elements and blocks stay open until their end is met.  The open ones lie innermost
first above the root, which is no node and is never closed; new nodes go to the
innermost one.  A block that is open knows which of its two rows new nodes go to: to
the second, from the moment that row exists.  All rows here are newest first; closing
a node turns its rows round.

A step that fails leaves a stack all the same, and the error beside it.  Each step looks
at what is open before it moves anything, so the stack that is left is the one that was
there; the lemmas named `keeps_` say so.
-/
import TemplateTree.Assembly.Error
import TemplateTree.Node.Basic

namespace TemplateTree

/-- What a step leaves, and why it failed, if it did. -/
inductive Step (σ : Type)
  | error (e : TemplateError) (left : σ)
  | ok (left : σ)

namespace Step

variable {σ τ : Type}

/-- What is left, whether the step failed or not. -/
def left : Step σ → σ
  | error _ left => left
  | ok left => left

/-- The step on another picture of what it leaves. -/
def map (f : σ → τ) : Step σ → Step τ
  | error e left => error e (f left)
  | ok left => ok (f left)

/-- A step that leaves what was there if it fails. -/
def Keeps (s : σ) (step : Step σ) : Prop :=
  ∀ e left, step = error e left → left = s

theorem keeps_error (e : TemplateError) (s : σ) : (error e s).Keeps s := by
  intro e' left h
  cases h
  rfl

theorem keeps_ok (s next : σ) : (ok next).Keeps s := by
  intro e left h
  cases h

end Step

/-- An element or block whose end is not met yet, with the nodes it has so far, newest
first. -/
inductive OpenNode
  | element (tag : StartTag) (children : List Node)
  | block (expression : Expression) (children : List Node) (inverse : Option (List Node))

namespace OpenNode

/-- Adds a node to the row that is being filled. -/
def push (node : Node) : OpenNode → OpenNode
  | element tag children => element tag (Node.push children node)
  | block expression children none => block expression (Node.push children node) none
  | block expression children (some inverse) =>
    block expression children (some (Node.push inverse node))

/-- The node, once its end is met. -/
def close : OpenNode → Node
  | element tag children => .element tag children.reverse
  | block expression children inverse =>
    .block expression children.reverse (inverse.map List.reverse)

/-- As error messages put it. -/
def opened : OpenNode → Opened
  | element tag _ => .element tag.name
  | block expression _ _ => .block expression.path

end OpenNode

/-- The nodes that are open, and the finished ones outside of them. -/
structure OpenStack where
  /-- The most nodes that may be open at once. -/
  maxDepth : Nat
  /-- The finished nodes that lie in no open one, newest first. -/
  root : List Node := []
  /-- The open nodes, innermost first. -/
  nodes : List OpenNode := []

namespace OpenStack

/-- How many nodes are open. -/
def depth (s : OpenStack) : Nat :=
  s.nodes.length

/-- Adds a node to the innermost open one. -/
def push (s : OpenStack) (node : Node) : OpenStack :=
  match s.nodes with
  | [] => { s with root := Node.push s.root node }
  | top :: outer => { s with nodes := top.push node :: outer }

/-- Opens a node, unless that would be one too many. -/
def openNode (s : OpenStack) (node : OpenNode) : Step OpenStack :=
  if s.maxDepth ≤ s.depth then .error (.nestingTooDeep s.maxDepth) s
  else .ok { s with nodes := node :: s.nodes }

/-- The innermost open node, or the root. -/
def opened (s : OpenStack) : Opened :=
  match s.nodes with
  | [] => .fragment
  | top :: _ => top.opened

/-- Ends the innermost element, whose name has to be the one given. -/
def closeElement (s : OpenStack) (name : String) : Step OpenStack :=
  match s.nodes with
  | .element tag children :: outer =>
    if sameIgnoringCase tag.name name then
      .ok ({ s with nodes := outer }.push (OpenNode.element tag children).close)
    else .error (.unmatchedCloseTag tag.name name s.depth) s
  | _ => .error (.unexpectedCloseTag name s.opened s.depth) s

/-- Begins an element.  One that ends itself is finished at once. -/
def openElement (s : OpenStack) (tag : StartTag) : Step OpenStack :=
  let tag := { tag with name := asciiLower tag.name }
  if tag.selfClosing then .ok (s.push (.element tag [])) else s.openNode (.element tag [])

/-- Takes a token. -/
def mergeToken (s : OpenStack) : Token → Step OpenStack
  | .text content => .ok (s.push (.text content))
  | .comment content => .ok (s.push (.comment content))
  | .startTag tag => s.openElement tag
  | .endTag tag => s.closeElement tag.name

/-- Begins a block. -/
def openBlock (s : OpenStack) (expression : Expression) : Step OpenStack :=
  s.openNode (.block expression [] none)

/-- Begins the second row of the innermost node, which has to be a block.  A row begun
before is forgotten. -/
def startInverse (s : OpenStack) : Step OpenStack :=
  match s.nodes with
  | .block expression children _ :: outer =>
    .ok { s with nodes := .block expression children (some []) :: outer }
  | _ => .error (.unterminatedStructure s.opened s.depth) s

/-- Ends the innermost node, which has to be a block. -/
def leaveBlock (s : OpenStack) : Step OpenStack :=
  match s.nodes with
  | .block expression children inverse :: outer =>
    .ok ({ s with nodes := outer }.push (OpenNode.block expression children inverse).close)
  | _ => .error (.unterminatedStructure s.opened s.depth) s

/-! ### Small facts -/

@[simp] theorem depth_push (s : OpenStack) (node : Node) : (s.push node).depth = s.depth := by
  unfold push depth
  split <;> simp_all

@[simp] theorem maxDepth_push (s : OpenStack) (node : Node) :
    (s.push node).maxDepth = s.maxDepth := by
  unfold push
  split <;> rfl

/-- A node opens exactly when there is room for it. -/
theorem openNode_eq_error_iff {s left : OpenStack} {node : OpenNode} {e : TemplateError} :
    s.openNode node = .error e left ↔
      s.maxDepth ≤ s.depth ∧ e = .nestingTooDeep s.maxDepth ∧ left = s := by
  unfold openNode
  by_cases h : s.maxDepth ≤ s.depth <;> simp [h, eq_comm]

/-! ### Steps that fail

The stack is as it was then, whatever was on it. -/

theorem keeps_openNode (s : OpenStack) (node : OpenNode) : (s.openNode node).Keeps s := by
  intro e left h
  exact (openNode_eq_error_iff.mp h).2.2

theorem keeps_openElement (s : OpenStack) (tag : StartTag) : (s.openElement tag).Keeps s := by
  unfold openElement
  by_cases hself : tag.selfClosing = true
  · rw [if_pos hself]
    exact Step.keeps_ok s _
  · rw [if_neg hself]
    exact s.keeps_openNode _

/-- An end tag is compared with the innermost element before that element is taken away. -/
theorem keeps_closeElement (s : OpenStack) (name : String) : (s.closeElement name).Keeps s := by
  unfold closeElement
  split
  · split
    · exact Step.keeps_ok s _
    · exact Step.keeps_error _ s
  · exact Step.keeps_error _ s

theorem keeps_mergeToken (s : OpenStack) (token : Token) : (s.mergeToken token).Keeps s := by
  cases token with
  | text content | comment content => exact Step.keeps_ok s _
  | startTag tag => exact s.keeps_openElement tag
  | endTag tag => exact s.keeps_closeElement tag.name

theorem keeps_openBlock (s : OpenStack) (expression : Expression) :
    (s.openBlock expression).Keeps s :=
  s.keeps_openNode _

theorem keeps_startInverse (s : OpenStack) : s.startInverse.Keeps s := by
  unfold startInverse
  split
  · exact Step.keeps_ok s _
  · exact Step.keeps_error _ s

theorem keeps_leaveBlock (s : OpenStack) : s.leaveBlock.Keeps s := by
  unfold leaveBlock
  split
  · exact Step.keeps_ok s _
  · exact Step.keeps_error _ s

end OpenStack

end TemplateTree
