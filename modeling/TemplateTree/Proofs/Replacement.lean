/-
Other expressions in their place.

A replacement puts an expression in the place of each expression, and a block's expression in
the place of each block's.  Everything that an expression can get into has a version after the
replacement: programs and operations, tags and tokens, open nodes and stacks.

Comments are the one place where an expression is not kept but written out, so what a comment
says after the replacement cannot be told from what it said before.  The sketch of a tree is
therefore the tree after the replacement with empty comments.  Sketches are what all that is
done to a stack agrees with: it is done to the sketch of the stack in the same way.
-/
import TemplateTree.Proofs.Inventory

namespace TemplateTree

/-- What is put in the place of each expression. -/
structure Replacement where
  mustache : Mustache → Mustache
  expression : Expression → Expression

namespace Replacement

/-- Every expression in its own place. -/
def same : Replacement := ⟨id, id⟩

variable (r : Replacement)

/-! ### Tags and tokens -/

def fragment : Fragment → Fragment
  | .text content => .text content
  | .mustache m => .mustache (r.mustache m)

def attr (a : Attribute) : Attribute :=
  { a with value := a.value.map r.fragment }

def tag (t : Tag) : Tag :=
  { t with attributes := t.attributes.map r.attr }

def startTag (t : StartTag) : StartTag :=
  { t with toTag := r.tag t.toTag, modifiers := t.modifiers.map r.mustache }

def token : Token → Token
  | .text content => .text content
  | .comment content => .comment content
  | .startTag tag => .startTag (r.startTag tag)
  | .endTag tag => .endTag (r.tag tag)

def operation : Operation → Operation
  | .token t => .token (r.token t)
  | .mustache m => .mustache (r.mustache m)
  | .enterBlock expression => .enterBlock (r.expression expression)
  | .feed text => .feed text
  | .flushText => .flushText
  | .closeProgram => .closeProgram
  | .startInverse => .startInverse
  | .leaveBlock => .leaveBlock

/-! ### Programs -/

mutual

def statement : Statement → Statement
  | .content text => .content text
  | .mustache m => .mustache (r.mustache m)
  | .block expression body inverse =>
    .block (r.expression expression) (program body) (inverseProgram inverse)

def program : List Statement → List Statement
  | [] => []
  | first :: rest => statement first :: program rest

def inverseProgram : Option (List Statement) → Option (List Statement)
  | none => none
  | some statements => some (program statements)

end

mutual

theorem operations_statement (first : Statement) :
    (r.statement first).operations = first.operations.map r.operation := by
  cases first with
  | content text | mustache m => rfl
  | block expression body inverse =>
    simp only [statement, Statement.operations, List.map_cons, List.map_append,
      operationsOf_program body, inverseOperations_program inverse]
    rfl

/-- **The operations of a program after the replacement** are its operations after it. -/
theorem operationsOf_program (statements : List Statement) :
    Statement.operationsOf (r.program statements) =
      (Statement.operationsOf statements).map r.operation := by
  cases statements with
  | nil => rfl
  | cons first rest =>
    rw [program, Statement.operationsOf, Statement.operationsOf, List.map_append,
      operations_statement first, operationsOf_program rest]

theorem inverseOperations_program (inverse : Option (List Statement)) :
    Statement.inverseOperations (r.inverseProgram inverse) =
      (Statement.inverseOperations inverse).map r.operation := by
  cases inverse with
  | none => rfl
  | some statements =>
    simp only [inverseProgram, Statement.inverseOperations, List.map_cons, List.map_append,
      operationsOf_program statements]
    rfl

end

/-! ### Sketches -/

mutual

/-- A node after the replacement, but for what its comments say. -/
def sketch : Node → Node
  | .element tag children => .element (r.startTag tag) (sketchOf children)
  | .block expression children inverse =>
    .block (r.expression expression) (sketchOf children) (sketchOfInverse inverse)
  | .text content => .text content
  | .comment _ => .comment ""
  | .mustache m => .mustache (r.mustache m)

def sketchOf : List Node → List Node
  | [] => []
  | node :: rest => sketch node :: sketchOf rest

def sketchOfInverse : Option (List Node) → Option (List Node)
  | none => none
  | some nodes => some (sketchOf nodes)

end

theorem sketchOf_eq_map (nodes : List Node) : r.sketchOf nodes = nodes.map r.sketch := by
  induction nodes with
  | nil => rfl
  | cons node rest ih => rw [sketchOf, ih, List.map_cons]

theorem sketchOf_reverse (nodes : List Node) :
    r.sketchOf nodes.reverse = (r.sketchOf nodes).reverse := by
  rw [sketchOf_eq_map, sketchOf_eq_map, List.map_reverse]

theorem sketchOfInverse_reverse (inverse : Option (List Node)) :
    r.sketchOfInverse (inverse.map List.reverse) =
      (r.sketchOfInverse inverse).map List.reverse := by
  cases inverse with
  | none => rfl
  | some nodes => exact congrArg some (r.sketchOf_reverse nodes)

def openNode : OpenNode → OpenNode
  | .element tag children => .element (r.startTag tag) (r.sketchOf children)
  | .block expression children inverse =>
    .block (r.expression expression) (r.sketchOf children) (r.sketchOfInverse inverse)

def stack (s : OpenStack) : OpenStack :=
  { s with root := r.sketchOf s.root, nodes := s.nodes.map r.openNode }

/-! ### What agrees with sketches -/

theorem sketchOf_push (row : List Node) (node : Node) :
    r.sketchOf (Node.push row node) = Node.push (r.sketchOf row) (r.sketch node) := by
  unfold Node.push
  split
  · simp [sketchOf, sketch]
  · rename_i hother
    split
    · rename_i last earlier content hrow hnode
      -- a text after the replacement was one before
      exfalso
      cases row with
      | nil => cases hrow
      | cons first rest =>
        cases first <;> simp only [sketchOf, sketch, List.cons.injEq, reduceCtorEq, false_and,
          Node.text.injEq] at hrow
        cases node <;> simp only [sketch, reduceCtorEq] at hnode
        exact hother _ _ _ rfl rfl
    · rfl

theorem openNode_push (node : OpenNode) (child : Node) :
    r.openNode (node.push child) = (r.openNode node).push (r.sketch child) := by
  match node with
  | .element tag children => simp [openNode, OpenNode.push, sketchOf_push]
  | .block expression children none =>
    simp [openNode, OpenNode.push, sketchOf_push, sketchOfInverse]
  | .block expression children (some inverse) =>
    simp [openNode, OpenNode.push, sketchOf_push, sketchOfInverse]

theorem sketch_close (node : OpenNode) : r.sketch node.close = (r.openNode node).close := by
  cases node with
  | element tag children => simp [openNode, OpenNode.close, sketch, sketchOf_reverse]
  | block expression children inverse =>
    simp [openNode, OpenNode.close, sketch, sketchOf_reverse, sketchOfInverse_reverse]

theorem stack_push (s : OpenStack) (node : Node) :
    r.stack (s.push node) = (r.stack s).push (r.sketch node) := by
  obtain ⟨maxDepth, root, nodes⟩ := s
  cases nodes with
  | nil => simp [stack, OpenStack.push, sketchOf_push]
  | cons top outer => simp [stack, OpenStack.push, openNode_push]

@[simp] theorem depth_stack (s : OpenStack) : (r.stack s).depth = s.depth := by
  simp [stack, OpenStack.depth]

@[simp] theorem maxDepth_stack (s : OpenStack) : (r.stack s).maxDepth = s.maxDepth := rfl

end Replacement

namespace OpenStack

/-- A stack with its innermost node closed. -/
def closeTop (s : OpenStack) : OpenStack :=
  match s.nodes with
  | [] => s
  | top :: outer => OpenStack.push { s with nodes := outer } top.close

end OpenStack

namespace Replacement

variable (r : Replacement)

theorem stack_closeTop (s : OpenStack) : r.stack s.closeTop = (r.stack s).closeTop := by
  obtain ⟨maxDepth, root, nodes⟩ := s
  cases nodes with
  | nil => rfl
  | cons top outer =>
    simp only [OpenStack.closeTop, stack, List.map_cons, ← sketch_close]
    exact r.stack_push ⟨maxDepth, root, outer⟩ top.close

/-! ### What agrees with the replacement in a tag -/

/-- A change of a tag that expressions have no part in. -/
def Keeps (change : Tag → Tag) : Prop :=
  ∀ t : Tag, r.tag (change t) = change (r.tag t)

theorem join_fragments (content : String) (value : List Fragment) :
    Fragment.join content (value.map r.fragment) = (Fragment.join content value).map r.fragment := by
  induction value with
  | nil => rfl
  | cons first rest ih =>
    cases rest with
    | nil => cases first <;> rfl
    | cons second more =>
      rw [Fragment.join_cons_cons, List.map_cons, List.map_cons, Fragment.join_cons_cons,
        ← List.map_cons, ih, List.map_cons]

theorem attr_pushChar (a : Attribute) (c : Char) :
    r.attr (a.pushChar c) = (r.attr a).pushChar c := by
  unfold Attribute.pushChar Attribute.pushText
  split
  · rfl
  · simp [attr, join_fragments]

/-- A change of the last attribute that expressions have no part in. -/
theorem keeps_modifyLast {change : Attribute → Attribute}
    (h : ∀ a, r.attr (change a) = change (r.attr a)) :
    r.Keeps fun t => { t with attributes := Tag.modifyLast change t.attributes } := by
  intro t
  rcases List.eq_nil_or_concat' t.attributes with hnil | ⟨earlier, last, hlast⟩
  · simp [tag, hnil, Tag.modifyLast]
  · simp [tag, hlast, Tag.modifyLast_append, h]

theorem keeps_addToName (c : Char) : r.Keeps (·.addToName c) := fun _ => rfl

theorem keeps_startAttribute (c : Char) : r.Keeps (·.startAttribute c) := by
  intro t
  simp [tag, Tag.startAttribute, attr]

theorem keeps_addToAttributeName (c : Char) : r.Keeps (·.addToAttributeName c) :=
  r.keeps_modifyLast fun _ => rfl

theorem keeps_addToAttributeValue (c : Char) : r.Keeps (·.addToAttributeValue c) :=
  r.keeps_modifyLast fun a => r.attr_pushChar a c

/-- An expression in a value is replaced by the one that takes its place. -/
theorem tag_addMustache (t : Tag) (m : Mustache) :
    (r.tag t).addMustacheToAttributeValue? (r.mustache m) =
      (t.addMustacheToAttributeValue? m).map r.tag := by
  rcases List.eq_nil_or_concat' t.attributes with hnil | ⟨earlier, last, hlast⟩
  · simp [Tag.addMustacheToAttributeValue?, tag, hnil]
  · simp [Tag.addMustacheToAttributeValue?, tag, hlast, Tag.modifyLast_append, attr,
      Attribute.pushMustache, fragment]

end Replacement

end TemplateTree
