/-
The blocks of a tree are those of its program.

Between the opening and the closing of a block there may be any markup, also elements that stay
open for a while.  The blocks of a tree come in the order of the program all the same, each with
its expression, and with a row for the other case if the program has one.

A stack is looked at here with its elements taken away: what is left is a nest of open blocks, and
for each of them the blocks that are finished inside, part by part.  Markup does not change a
nest, so the nest after a program is known from the program alone.
-/
import TemplateTree.Proofs.Above
import TemplateTree.Proofs.Inventory

namespace TemplateTree

/-! ### The blocks of a program -/

namespace Statement

mutual

/-- A statement and all statements in it, in source order. -/
def withDescendants : Statement → List Statement
  | .content text => [.content text]
  | .mustache m => [.mustache m]
  | .block expression body inverse =>
    .block expression body inverse :: (descendantsOf body ++ descendantsOfInverse inverse)

/-- The statements of a program and all statements in them, in source order. -/
def descendantsOf : List Statement → List Statement
  | [] => []
  | statement :: rest => withDescendants statement ++ descendantsOf rest

/-- The statements of the program for the other case, and all statements in them. -/
def descendantsOfInverse : Option (List Statement) → List Statement
  | none => []
  | some program => descendantsOf program

end

/-- The expression of a block, and whether it has a program for the other case. -/
def block? : Statement → Option (Expression × Bool)
  | .block expression _ inverse => some (expression, inverse.isSome)
  | _ => none

/-- The expression of an expression in place. -/
def mustache? : Statement → Option Mustache
  | .mustache m => some m
  | _ => none

/-- The blocks of a program, in source order. -/
def blocksOf (program : Program) : List (Expression × Bool) :=
  (descendantsOf program).filterMap block?

end Statement

/-- The blocks of a tree. -/
def Inventory.blocks : Inventory (Expression × Bool) where
  block entry := [entry]

/-! ### Nests -/

/-- An open block, with the blocks that are finished in its two parts. -/
structure OpenBlock where
  expression : Expression
  first : List (Expression × Bool)
  second : Option (List (Expression × Bool))

namespace OpenBlock

/-- Adds blocks to the part that is being filled. -/
def add (more : List (Expression × Bool)) : OpenBlock → OpenBlock
  | ⟨expression, first, none⟩ => ⟨expression, first ++ more, none⟩
  | ⟨expression, first, some second⟩ => ⟨expression, first, some (second ++ more)⟩

/-- The block with all blocks in it, once it is closed. -/
def entries (b : OpenBlock) : List (Expression × Bool) :=
  (b.expression, b.second.isSome) :: (b.first ++ b.second.getD [])

end OpenBlock

/-- Open blocks, innermost first, and the finished blocks that lie in no open one. -/
structure Nest where
  root : List (Expression × Bool)
  nodes : List OpenBlock

namespace Nest

/-- Adds blocks to the innermost open one. -/
def add (more : List (Expression × Bool)) (n : Nest) : Nest :=
  match n.nodes with
  | [] => { n with root := n.root ++ more }
  | top :: outer => { n with nodes := top.add more :: outer }

/-- The nest after an operation. -/
def after (operation : Operation) (n : Nest) : Nest :=
  match operation, n.nodes with
  | .enterBlock expression, nodes => { n with nodes := ⟨expression, [], none⟩ :: nodes }
  | .startInverse, top :: outer => { n with nodes := { top with second := some [] } :: outer }
  | .leaveBlock, top :: outer => { n with nodes := outer }.add top.entries
  | _, _ => n

@[simp] theorem add_nil (n : Nest) : n.add [] = n := by
  obtain ⟨root, nodes⟩ := n
  match nodes with
  | [] => simp [add]
  | ⟨expression, first, none⟩ :: outer => simp [add, OpenBlock.add]
  | ⟨expression, first, some second⟩ :: outer => simp [add, OpenBlock.add]

@[simp] theorem add_add (first second : List (Expression × Bool)) (n : Nest) :
    (n.add first).add second = n.add (first ++ second) := by
  obtain ⟨root, nodes⟩ := n
  match nodes with
  | [] => simp [add]
  | ⟨expression, _, none⟩ :: outer => simp [add, OpenBlock.add]
  | ⟨expression, _, some _⟩ :: outer => simp [add, OpenBlock.add]

end Nest

/-! ### Programs -/

namespace Statement

theorem blocksOf_cons (statement : Statement) (rest : Program) :
    blocksOf (statement :: rest) = blocksOf [statement] ++ blocksOf rest := by
  simp [blocksOf, descendantsOf]

theorem blocksOf_block (expression : Expression) (body : Program) (inverse : Option Program) :
    blocksOf [.block expression body inverse] =
      (expression, inverse.isSome) ::
        (blocksOf body ++ (descendantsOfInverse inverse).filterMap block?) := by
  simp [blocksOf, descendantsOf, withDescendants, block?]

mutual

theorem nest_operations (statement : Statement) (n : Nest) :
    statement.operations.foldl (fun n operation => n.after operation) n =
      n.add (blocksOf [statement]) := by
  cases statement with
  | content text => exact (Nest.add_nil n).symm
  | mustache m => exact (Nest.add_nil n).symm
  | block expression body inverse =>
    rw [operations, List.foldl_cons, List.foldl_append, nest_operationsOf body, List.foldl_cons,
      blocksOf_block]
    exact nest_inverseOperations inverse expression (blocksOf body) n

/-- **A program adds its blocks to the nest**, and leaves the open ones as they were. -/
theorem nest_operationsOf (program : List Statement) (n : Nest) :
    (operationsOf program).foldl (fun n operation => n.after operation) n =
      n.add (blocksOf program) := by
  cases program with
  | nil => simp [operationsOf, blocksOf, descendantsOf]
  | cons statement rest =>
    rw [operationsOf, List.foldl_append, nest_operations statement, nest_operationsOf rest,
      Nest.add_add, ← blocksOf_cons]

/-- The rest of a block, after its first program. -/
theorem nest_inverseOperations (inverse : Option (List Statement)) (expression : Expression)
    (first : List (Expression × Bool)) (n : Nest) :
    (inverseOperations inverse ++ [Operation.leaveBlock]).foldl (fun n operation => n.after operation)
        { n with nodes := ⟨expression, first, none⟩ :: n.nodes } =
      n.add ((expression, inverse.isSome) ::
        (first ++ (descendantsOfInverse inverse).filterMap block?)) := by
  cases inverse with
  | none => rfl
  | some program =>
    rw [inverseOperations, List.cons_append, List.foldl_cons, List.append_assoc, List.foldl_append,
      nest_operationsOf program]
    rfl

end

end Statement

/-! ### Stacks -/

namespace OpenStack

/-- The nest of open nodes.  What is inside an element is inside the block around it. -/
def nestOf (root : List Node) : List OpenNode → Nest
  | [] => ⟨Inventory.blocks.ofRow root.reverse, []⟩
  | .element _ children :: outer => (nestOf root outer).add (Inventory.blocks.ofRow children.reverse)
  | .block expression children inverse :: outer =>
    { nestOf root outer with
      nodes := ⟨expression, Inventory.blocks.ofRow children.reverse,
        inverse.map fun row => Inventory.blocks.ofRow row.reverse⟩ :: (nestOf root outer).nodes }

/-- A stack with its elements taken away. -/
def nest (s : OpenStack) : Nest :=
  nestOf s.root s.nodes

variable {s s' : OpenStack}

theorem nest_push (s : OpenStack) (node : Node) :
    (s.push node).nest = s.nest.add (Inventory.blocks.ofRow [node]) := by
  obtain ⟨maxDepth, root, nodes⟩ := s
  match nodes with
  | [] => simp [push, nest, nestOf, Nest.add, Inventory.ofRow_push]
  | .element tag children :: outer =>
    simp [push, nest, nestOf, OpenNode.push, Inventory.ofRow_push]
  | .block expression children none :: outer =>
    simp [push, nest, nestOf, OpenNode.push, Nest.add, OpenBlock.add, Inventory.ofRow_push]
  | .block expression children (some inverse) :: outer =>
    simp [push, nest, nestOf, OpenNode.push, Nest.add, OpenBlock.add, Inventory.ofRow_push]

/-- An element neither adds a block nor takes one away, when it begins and when it ends. -/
theorem nest_mergeToken {token : Token} (h : s.mergeToken token = .ok s') : s'.nest = s.nest := by
  cases token with
  | text content | comment content =>
    cases h
    rw [nest_push]
    simp [Inventory.blocks]
  | startTag tag =>
    simp only [mergeToken, openElement] at h
    split at h
    · cases h
      rw [nest_push]
      simp [Inventory.blocks]
    · unfold openNode at h
      split at h
      · cases h
      · cases h
        simp [nest, nestOf]
  | endTag tag =>
    simp only [mergeToken, closeElement] at h
    split at h
    · rename_i start children outer hnodes
      split at h
      · cases h
        rw [nest_push]
        simp [nest, nestOf, hnodes, OpenNode.close, Inventory.blocks]
      · cases h
    · cases h

/-- **Only the steps of blocks change the nest of a stack.** -/
theorem blockView_nest : BlockView nest Nest.after where
  token := nest_mergeToken
  mustache s m := by
    rw [nest_push]
    simp [Inventory.blocks]
  openBlock h := by
    unfold openBlock openNode at h
    split at h
    · cases h
    · cases h
      rfl
  startInverse h := by
    unfold startInverse at h
    split at h
    · rename_i expression children inverse outer hnodes
      cases h
      simp [nest, nestOf, hnodes, Nest.after]
    · cases h
  leaveBlock h := by
    unfold leaveBlock at h
    split at h
    · rename_i expression children inverse outer hnodes
      cases h
      rw [nest_push, OpenNode.close, Inventory.ofRow_block]
      cases inverse <;>
        simp [nest, nestOf, hnodes, Nest.after, OpenBlock.entries, Inventory.blocks]
    · cases h
  other {operation} n hother := by
    cases operation <;> first | rfl | cases hother

end OpenStack

namespace Assembly

/-- A run that succeeds changes the nest operation by operation. -/
theorem nest_run :
    ∀ (operations : List Operation) {a b : Assembly}, a.run operations = ⟨b, none⟩ →
      b.stack.nest = operations.foldl (fun n operation => n.after operation) a.stack.nest := by
  intro operations
  induction operations with
  | nil =>
    intro a b h
    cases h
    rfl
  | cons operation rest ih =>
    intro a b h
    obtain ⟨next, happly, hlater⟩ := Outcome.done_of_andThen h
    rw [ih hlater, OpenStack.blockView_nest.apply happly, List.foldl_cons]

/-- **The blocks of a tree are the blocks of its program**, in the same order. -/
theorem blocks_of_run {program : Program} {maxDepth : Nat} {b : Assembly} {nodes : List Node}
    (h : (fresh maxDepth).run (Statement.operationsOf program) = ⟨b, none⟩)
    (hfinish : b.finish = .ok nodes) :
    Inventory.blocks.ofRow nodes = Statement.blocksOf program := by
  obtain ⟨-, hclosed, rfl⟩ := finish_eq_ok_iff.mp hfinish
  have hnest := nest_run _ h
  rw [Statement.nest_operationsOf, ← OpenStack.blockView_nest.flushText] at hnest
  simpa [OpenStack.nest, OpenStack.nestOf, hclosed, Nest.add, fresh] using hnest

end Assembly

end TemplateTree
