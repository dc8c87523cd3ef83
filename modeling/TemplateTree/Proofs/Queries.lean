/-
What queries tell of the program that a tree was made from.

The searches go through a tree in the order in which its nodes began, and `SourceOrder` has what
began when.  The text of a tree goes another way, because it leaves out the rows for the other
case.  What is shown on a stack grows with each text that is taken, unless an open block is in its
second row; and then nothing that is put on the stack is shown, neither now nor when it is closed.

An attribute is looked for by its name in small letters.  That finds the ones that have this name
in any case, because the name of an attribute is in small letters as it is read.
-/
import TemplateTree.Proofs.SourceOrder

namespace TemplateTree

/-! ### What is shown -/

namespace Node

theorem mainDescendantsOf_append (first second : List Node) :
    mainDescendantsOf (first ++ second) = mainDescendantsOf first ++ mainDescendantsOf second := by
  induction first with
  | nil => rfl
  | cons node rest ih => simp [mainDescendantsOf, ih]

@[simp] theorem textContent_nil : textContent [] = "" := rfl

theorem textContent_append (first second : List Node) :
    textContent (first ++ second) = textContent first ++ textContent second := by
  simp [textContent, mainDescendantsOf_append]

theorem textContent_text (content : String) : textContent [.text content] = content := by
  simp [textContent, mainDescendantsOf, withMainDescendants, text?]

theorem textContent_push (row : List Node) (node : Node) :
    textContent (push row node).reverse = textContent row.reverse ++ textContent [node] := by
  unfold push
  split <;> simp [textContent_append, textContent_text, String.append_assoc]

theorem textContent_of_isBare {node : Node} (h : node.isBare = true) : textContent [node] = "" := by
  match node with
  | .element _ [] | .comment _ | .mustache _ => rfl
  | .element _ (_ :: _) | .block .. | .text _ => cases h

end Node

namespace OpenNode

/-- Is this a block that is in its second row? -/
def inInverse : OpenNode → Bool
  | element _ _ => false
  | block _ _ inverse => inverse.isSome

/-- The nodes of the first row so far. -/
def main : OpenNode → List Node
  | element _ children => children
  | block _ children _ => children

theorem textContent_close (node : OpenNode) :
    Node.textContent [node.close] = Node.textContent node.main.reverse := by
  cases node <;>
    simp [close, main, Node.textContent, Node.mainDescendantsOf, Node.withMainDescendants,
      List.filterMap_cons, Node.text?]

theorem main_push (node : OpenNode) (child : Node) :
    (node.push child).main = if node.inInverse then node.main else Node.push node.main child := by
  match node with
  | element _ _ | block _ _ none | block _ _ (some _) => rfl

theorem main_of_isFresh {node : OpenNode} (h : node.isFresh = true) : node.main = [] := by
  match node with
  | element _ [] | block _ [] none => rfl
  | element _ (_ :: _) | block _ (_ :: _) _ | block _ [] (some _) => cases h

end OpenNode

namespace OpenStack

/-- Is an open block in its second row? -/
def inInverse (s : OpenStack) : Bool :=
  s.nodes.any OpenNode.inInverse

/-- The text that is shown of open nodes, innermost first, and of what is outside of them: what is
in a second row is no part of it. -/
def shownIn (root : List Node) : List OpenNode → String
  | [] => Node.textContent root.reverse
  | top :: outer =>
    if outer.any OpenNode.inInverse then shownIn root outer
    else shownIn root outer ++ Node.textContent top.main.reverse

/-- The text that is shown of a stack. -/
def shown (s : OpenStack) : String :=
  shownIn s.root s.nodes

variable {s next last : OpenStack} {operation : Operation}

/-- In a second row nothing is shown. -/
theorem shown_push (s : OpenStack) (node : Node) :
    (s.push node).shown = if s.inInverse then s.shown else s.shown ++ Node.textContent [node] := by
  obtain ⟨maxDepth, root, nodes⟩ := s
  cases nodes with
  | nil => simp [push, shown, shownIn, inInverse, Node.textContent_push]
  | cons top outer =>
    cases houter : outer.any OpenNode.inInverse with
    | true => simp [push, shown, shownIn, inInverse, houter]
    | false =>
      cases htop : top.inInverse <;>
        simp [push, shown, shownIn, inInverse, houter, htop, OpenNode.main_push,
          Node.textContent_push, String.append_assoc]

/-- What is shown of a node is shown before it is closed. -/
theorem shown_close {top : OpenNode} {outer : List OpenNode} (hnodes : s.nodes = top :: outer) :
    (push { s with nodes := outer } top.close).shown = s.shown := by
  rw [shown_push, OpenNode.textContent_close]
  simp [shown, shownIn, inInverse, hnodes]

/-- **A text that is taken is shown** unless an open block is in its second row, and nothing else
is. -/
theorem shown_take (h : s.take operation = .ok next) :
    next.shown = s.shown ++ if s.inInverse then "" else operation.text?.getD "" := by
  cases takes_of_take h with
  | text content =>
    rw [shown_push, Node.textContent_text]
    cases s.inInverse <;> simp [Operation.text?]
  | whole hwhole =>
    obtain ⟨htext, hbare⟩ := Operation.isBare_of_whole? hwhole
    rw [shown_push, Node.textContent_of_isBare hbare, htext]
    simp
  | opens hopen =>
    obtain ⟨htext, -, hfresh⟩ := Operation.isFresh_of_open? hopen
    rw [htext]
    simp [shown, shownIn, OpenNode.main_of_isFresh hfresh]
  | ends hsilent hnodes =>
    rw [shown_close hnodes, (Operation.none_of_isSilent hsilent).1]
    simp
  | otherwise hnodes => simp [shown, shownIn, hnodes, OpenNode.main, Operation.text?]
  | nothing hsilent =>
    rw [(Operation.none_of_isSilent hsilent).1]
    simp

theorem shown_takesAll {operations : List Operation} (h : last.TakesAll s operations) :
    last.shown = s.shown ++ String.join
      (((s.moments operations).filter fun now => !now.stack.inInverse).filterMap
        fun now => now.operation.text?) := by
  induction h with
  | done => simp [moments]
  | @next s next operation later htake hlater ih =>
    rw [ih, shown_take htake, moments_cons htake]
    cases hinverse : s.inInverse with
    | true => simp [hinverse]
    | false => cases htext : operation.text? <;> simp [hinverse, htext, String.append_assoc]

end OpenStack

/-! ### Attributes -/

namespace Node

mutual

theorem wellFormed_of_mem_withDescendants (node : Node) (h : node.WellFormed) :
    ∀ below ∈ node.withDescendants, below.WellFormed := by
  cases node with
  | element tag children =>
    rw [withDescendants, List.forall_mem_cons]
    exact ⟨h, wellFormed_of_mem_descendantsOf children h.2.1⟩
  | block expression children inverse =>
    rw [withDescendants, List.forall_mem_cons, List.forall_mem_append]
    exact ⟨h, wellFormed_of_mem_descendantsOf children h.1.1,
      wellFormed_of_mem_descendantsOfInverse inverse h.2⟩
  | text | comment | mustache =>
    rw [withDescendants, List.forall_mem_singleton]
    exact h

theorem wellFormed_of_mem_descendantsOf (nodes : List Node) (h : AllWellFormed nodes) :
    ∀ below ∈ descendantsOf nodes, below.WellFormed := by
  cases nodes with
  | nil =>
    intro below hmem
    cases hmem
  | cons node rest =>
    rw [descendantsOf, List.forall_mem_append]
    exact ⟨wellFormed_of_mem_withDescendants node h.1, wellFormed_of_mem_descendantsOf rest h.2⟩

theorem wellFormed_of_mem_descendantsOfInverse (inverse : Option (List Node))
    (h : InverseWellFormed inverse) : ∀ below ∈ descendantsOfInverse inverse, below.WellFormed := by
  cases inverse with
  | none =>
    intro below hmem
    cases hmem
  | some nodes => exact wellFormed_of_mem_descendantsOf nodes h.1

end

end Node

/-- An attribute is found by its name in any case. -/
theorem Tag.WellFormed.attribute?_eq {tag : Tag} (h : tag.WellFormed) (name : String) :
    tag.attribute? name = tag.attributes.find? fun a => sameIgnoringCase a.name name := by
  refine List.find?_congr fun a ha => ?_
  rw [sameIgnoringCase, (h.attributes a ha).name.spells.2]

/-! ### Programs -/

/-- What the queries tell of a tree is what was taken in the walk over its program. -/
structure Recounts (program : Program) (maxDepth : Nat) (nodes : List Node) : Prop where
  /-- What is taken at the moments of the walk makes the tree of an empty stack. -/
  taken : ∃ last : OpenStack,
    OpenStack.takeAll { maxDepth } ((moments program maxDepth).map (·.operation)) = .ok last ∧
      last.nodes = [] ∧ nodes = last.root.reverse
  /-- The tokens and the blocks among it are those that the log tells of. -/
  logged : (assembleRecords program maxDepth).filterMap Record.taken? =
    (moments program maxDepth).filterMap fun now => now.operation.taken?
  /-- A search for elements finds those that begin with a start tag of this name. -/
  elements : ∀ name, Node.elementsByTagName nodes name =
    ((moments program maxDepth).filter fun now => now.operation.startsElement name).flatMap
      Moment.begins
  /-- With a start tag one element begins, which has no children if the tag ends itself. -/
  startTags : ∀ now ∈ moments program maxDepth, ∀ tag, now.operation = .token (.startTag tag) →
    ∃ children, now.begins = [.element { tag with name := asciiLower tag.name } children] ∧
      (tag.selfClosing = true → children = [])
  /-- A search for blocks finds those that are entered under this name. -/
  blocks : ∀ name, Node.blocksByName nodes name =
    ((moments program maxDepth).filter fun now => now.operation.entersBlock name).flatMap
      Moment.begins
  /-- With the entering of a block that block begins, and nothing else. -/
  entered : ∀ now ∈ moments program maxDepth, ∀ expression,
    now.operation = .enterBlock expression →
      ∃ children inverse, now.begins = [.block expression children inverse]
  /-- The text of the tree is that of the texts that are taken while no open block is in its second
  row. -/
  text : Node.textContent nodes =
    String.join (((moments program maxDepth).filter fun now => !now.stack.inInverse).filterMap
      fun now => now.operation.text?)
  /-- An attribute is the first one with its name, whatever the case of the letters. -/
  attributes : ∀ name, ∀ node ∈ Node.descendantsOf nodes, ∀ tag, node.tag? = some tag →
    tag.attribute? name = tag.attributes.find? fun a => sameIgnoringCase a.name name

section Programs

variable {program : Program} {maxDepth : Nat} {nodes : List Node}

theorem textContent_of_assemble (h : assemble program maxDepth = .ok nodes) :
    Node.textContent nodes =
      String.join (((moments program maxDepth).filter fun now => !now.stack.inInverse).filterMap
        fun now => now.operation.text?) := by
  obtain ⟨last, htakes, hclosed, rfl⟩ := takesAll_history_of_assemble h
  have hshown := OpenStack.shown_takesAll htakes
  simpa [OpenStack.shown, OpenStack.shownIn, hclosed, moments] using hshown

theorem attribute?_of_assemble (h : assemble program maxDepth = .ok nodes) (name : String)
    {node : Node} (hmem : node ∈ Node.descendantsOf nodes) {tag : StartTag}
    (htag : node.tag? = some tag) :
    tag.attribute? name = tag.attributes.find? fun a => sameIgnoringCase a.name name := by
  have hnode := Node.wellFormed_of_mem_descendantsOf nodes (assemble_wellFormed h).1.1 node hmem
  cases node with
  | element start children =>
    cases htag
    exact hnode.1.1.attribute?_eq name
  | block | text | comment | mustache => cases htag

/-- **Queries report a walk in its order**: searches find what was taken in the order in which it
was taken, though nodes are put into the tree in another one, and the text of a tree is what was
taken outside of second rows. -/
theorem assemble_recounts (h : assemble program maxDepth = .ok nodes) :
    Recounts program maxDepth nodes := by
  have hbegins := begins_of_mem_moments h
  constructor
  case taken =>
    rw [operations_moments_of_assemble h]
    exact takeAll_history_of_assemble h
  case logged =>
    rw [taken_assembleRecords h, ← operations_moments_of_assemble h, List.filterMap_map]
    rfl
  case elements =>
    intro name
    exact search_of_assemble h (fun _ => rfl) fun hbegins => hbegins.filter_element name
  case startTags =>
    intro now hmem tag heq
    have hnow := hbegins now hmem
    rw [heq] at hnow
    exact hnow.of_startTag
  case blocks =>
    intro name
    exact search_of_assemble h (fun _ => rfl) fun hbegins => hbegins.filter_block name
  case entered =>
    intro now hmem expression heq
    have hnow := hbegins now hmem
    rw [heq] at hnow
    exact hnow.of_enterBlock
  case text => exact textContent_of_assemble h
  case attributes => exact fun name node hmem tag htag => attribute?_of_assemble h name hmem htag

end Programs

/-- An element in either row of a block and one around it, two with names in capital letters and
one that ends itself. -/
theorem assemble_recounts_of_rows :
    ∃ nodes, assemble
        [.content "<P ID='a'>x", .block ⟨"if", [], []⟩ [.content "<BR/>y"]
          (some [.content "<p>z</p>"]), .content "</p>"] 3 = .ok nodes ∧
      Recounts
        [.content "<P ID='a'>x", .block ⟨"if", [], []⟩ [.content "<BR/>y"]
          (some [.content "<p>z</p>"]), .content "</p>"] 3 nodes := by
  have h : assemble
      [.content "<P ID='a'>x", .block ⟨"if", [], []⟩ [.content "<BR/>y"]
        (some [.content "<p>z</p>"]), .content "</p>"] 3 =
      .ok [.element ⟨⟨"p", [⟨"id", [.text "a"]⟩]⟩, false, []⟩
        [.text "x", .block ⟨"if", [], []⟩ [.element ⟨⟨"br", []⟩, true, []⟩ [], .text "y"]
          (some [.element ⟨⟨"p", []⟩, false, []⟩ [.text "z"]])]] := by
    cbv
  exact ⟨_, h, assemble_recounts h⟩

end TemplateTree
