/-
Searches go through a tree in the order of the walk that made it.

A node is put into a row when its end is met, but a search comes upon it where it begins.  So while
a walk goes on, the nodes that a search will list are on the stack in part: some are finished, and
some are open, and of the latter it is not known yet what they come to be.  `comeToBe` knows it,
since it is told the rest of the walk.  With its help all nodes that have begun so far are listed in
the order in which they began, and each thing that is taken adds to the end of this list the node
that begins with it.  At the end of the walk the list is the tree as a search goes through it.

Texts are left out of the list.  One that is joined to another is no node of its own, so it cannot
be said of a text which of the ones that were taken it comes from.
-/
import TemplateTree.Node.Query
import TemplateTree.Proofs.History

namespace TemplateTree

/-! ### What is taken -/

/-- Is this a node with nothing in it, and no text? -/
def Node.isBare : Node → Bool
  | .element _ [] | .comment _ | .mustache _ => true
  | _ => false

/-- Is this an open node that nothing was put into yet? -/
def OpenNode.isFresh : OpenNode → Bool
  | .element _ [] | .block _ [] none => true
  | _ => false

namespace Operation

/-- The text that is taken. -/
def text? : Operation → Option String
  | .token (.text content) => some content
  | _ => none

/-- The start tag that is taken. -/
def startTag? : Operation → Option StartTag
  | .token (.startTag tag) => some tag
  | _ => none

/-- The expression of the block that is entered. -/
def entered? : Operation → Option Expression
  | .enterBlock expression => some expression
  | _ => none

/-- The node that begins and ends at once.  A text makes none, since it may be joined to another
one. -/
def whole? : Operation → Option Node
  | .token (.comment content) => some (.comment content)
  | .token (.startTag tag) => if tag.selfClosing then some (Node.ofStartTag tag) else none
  | .mustache m => some (.mustache m)
  | _ => none

/-- The node that begins and stays open. -/
def open? : Operation → Option OpenNode
  | .token (.startTag tag) =>
    if tag.selfClosing then none else some (.element { tag with name := asciiLower tag.name } [])
  | .enterBlock expression => some (.block expression [] none)
  | _ => none

/-- Is nothing put on a stack here that was not there before? -/
def isSilent : Operation → Bool
  | .token (.endTag _) | .leaveBlock | .startInverse => true
  | .feed _ | .flushText | .closeProgram => true
  | _ => false

variable {operation : Operation}

theorem isBare_of_whole? {node : Node} (h : operation.whole? = some node) :
    operation.text? = none ∧ node.isBare = true := by
  cases operation with
  | token t =>
    cases t with
    | startTag tag =>
      by_cases hself : tag.selfClosing = true
      · rw [whole?, if_pos hself] at h
        cases h
        exact ⟨rfl, rfl⟩
      · rw [whole?, if_neg hself] at h
        cases h
    | comment content =>
      cases h
      exact ⟨rfl, rfl⟩
    | text | endTag => cases h
  | mustache m =>
    cases h
    exact ⟨rfl, rfl⟩
  | feed | enterBlock | flushText | closeProgram | startInverse | leaveBlock => cases h

theorem isFresh_of_open? {node : OpenNode} (h : operation.open? = some node) :
    operation.text? = none ∧ operation.whole? = none ∧ node.isFresh = true := by
  cases operation with
  | token t =>
    cases t with
    | startTag tag =>
      by_cases hself : tag.selfClosing = true
      · rw [open?, if_pos hself] at h
        cases h
      · rw [open?, if_neg hself] at h
        cases h
        exact ⟨rfl, if_neg hself, rfl⟩
    | text | comment | endTag => cases h
  | enterBlock expression =>
    cases h
    exact ⟨rfl, rfl, rfl⟩
  | feed | mustache | flushText | closeProgram | startInverse | leaveBlock => cases h

theorem none_of_isSilent (h : operation.isSilent = true) :
    operation.text? = none ∧ operation.whole? = none ∧ operation.open? = none := by
  cases operation with
  | token t =>
    cases t with
    | endTag tag => exact ⟨rfl, rfl, rfl⟩
    | text | comment | startTag => cases h
  | mustache | enterBlock => cases h
  | feed | flushText | closeProgram | startInverse | leaveBlock => exact ⟨rfl, rfl, rfl⟩

end Operation

namespace OpenStack

/-- All that a stack can do. -/
inductive Takes (s : OpenStack) : Operation → OpenStack → Prop
  | text (content : String) : Takes s (.token (.text content)) (s.push (.text content))
  | whole {operation : Operation} {node : Node} (h : operation.whole? = some node) :
    Takes s operation (s.push node)
  | opens {operation : Operation} {node : OpenNode} (h : operation.open? = some node) :
    Takes s operation { s with nodes := node :: s.nodes }
  | ends {operation : Operation} {top : OpenNode} {outer : List OpenNode}
    (h : operation.isSilent = true) (hnodes : s.nodes = top :: outer) :
    Takes s operation (OpenStack.push { s with nodes := outer } top.close)
  | otherwise {expression : Expression} {children : List Node} {inverse : Option (List Node)}
    {outer : List OpenNode} (hnodes : s.nodes = .block expression children inverse :: outer) :
    Takes s .startInverse { s with nodes := .block expression children (some []) :: outer }
  | nothing {operation : Operation} (h : operation.isSilent = true) : Takes s operation s

variable {s next last : OpenStack} {operation : Operation}

theorem takes_openNode {node : OpenNode} (hopen : operation.open? = some node)
    (h : s.openNode node = .ok next) : s.Takes operation next := by
  unfold openNode at h
  split at h
  · cases h
  · cases h
    exact .opens hopen

/-- **What a stack takes, it takes in one of six ways.** -/
theorem takes_of_take (h : s.take operation = .ok next) : s.Takes operation next := by
  cases operation with
  | mustache m =>
    cases h
    exact .whole rfl
  | enterBlock expression => exact takes_openNode rfl h
  | feed | flushText | closeProgram =>
    cases h
    exact .nothing rfl
  | startInverse =>
    simp only [take, startInverse] at h
    split at h
    · rename_i hnodes
      cases h
      exact .otherwise hnodes
    · cases h
  | leaveBlock =>
    simp only [take, leaveBlock] at h
    split at h
    · rename_i hnodes
      cases h
      exact .ends rfl hnodes
    · cases h
  | token t =>
    cases t with
    | text content =>
      cases h
      exact .text content
    | comment content =>
      cases h
      exact .whole rfl
    | startTag tag =>
      simp only [take, mergeToken, openElement] at h
      by_cases hself : tag.selfClosing = true
      · rw [if_pos hself] at h
        cases h
        exact .whole (by simp [Operation.whole?, hself, Node.ofStartTag])
      · rw [if_neg hself] at h
        exact takes_openNode (by simp [Operation.open?, hself]) h
    | endTag tag =>
      simp only [take, mergeToken, closeElement] at h
      split at h
      · rename_i hnodes
        split at h
        · cases h
          exact .ends rfl hnodes
        · cases h
      · cases h

/-- A stack takes one thing after another and is the last one then. -/
inductive TakesAll (last : OpenStack) : OpenStack → List Operation → Prop
  | done : TakesAll last last []
  | next {s next : OpenStack} {operation : Operation} {later : List Operation}
    (h : s.take operation = .ok next) (hlater : TakesAll last next later) :
    TakesAll last s (operation :: later)

theorem takesAll_of_takeAll :
    ∀ (operations : List Operation) {s : OpenStack}, s.takeAll operations = .ok last →
      last.TakesAll s operations := by
  intro operations
  induction operations with
  | nil =>
    intro s h
    cases h
    exact .done
  | cons operation later ih =>
    intro s h
    obtain ⟨next, htake, hlater⟩ := takeAll_cons_eq_ok_iff.mp h
    exact .next htake (ih hlater)

end OpenStack

/-! ### What open nodes come to be -/

/-- A node with the tag or the expression of an open node. -/
inductive OpenNode.Becomes : OpenNode → Node → Prop
  | element (tag : StartTag) (children children' : List Node) :
    Becomes (.element tag children) (.element tag children')
  | block (expression : Expression) (children children' : List Node)
    (inverse inverse' : Option (List Node)) :
    Becomes (.block expression children inverse) (.block expression children' inverse')

namespace OpenNode

theorem becomes_close (node : OpenNode) : node.Becomes node.close := by
  cases node with
  | element tag children => exact .element ..
  | block expression children inverse => exact .block ..

theorem Becomes.of_push {node : OpenNode} {child finished : Node}
    (h : (node.push child).Becomes finished) : node.Becomes finished := by
  match node, h with
  | .element _ _, .element .. => exact .element ..
  | .block _ _ none, .block .. => exact .block ..
  | .block _ _ (some _), .block .. => exact .block ..

end OpenNode

namespace OpenStack

/-- What the open nodes come to be, innermost first, if a stack takes the rest of a walk: the nodes
that end here are as they are closed, and the others come to be what they come to be later, when
other nodes may be open above them. -/
def comeToBe (s : OpenStack) : List Operation → List Node
  | [] => s.nodes.map OpenNode.close
  | operation :: later =>
    match s.take operation with
    | .error _ _ => s.nodes.map OpenNode.close
    | .ok next =>
      (s.nodes.take (s.depth - next.depth)).map OpenNode.close ++
        (next.comeToBe later).drop (next.depth - s.depth)

variable {s next last : OpenStack} {operation : Operation} {later : List Operation}

theorem comeToBe_cons (h : s.take operation = .ok next) (later : List Operation) :
    s.comeToBe (operation :: later) =
      (s.nodes.take (s.depth - next.depth)).map OpenNode.close ++
        (next.comeToBe later).drop (next.depth - s.depth) := by
  rw [comeToBe, h]

theorem comeToBe_of_depth_eq (h : s.take operation = .ok next) (hdepth : next.depth = s.depth)
    (later : List Operation) : s.comeToBe (operation :: later) = next.comeToBe later := by
  simp [comeToBe_cons h, hdepth]

theorem comeToBe_opens {node : OpenNode}
    (h : s.take operation = .ok { s with nodes := node :: s.nodes }) (later : List Operation) :
    s.comeToBe (operation :: later) =
      (comeToBe { s with nodes := node :: s.nodes } later).tail := by
  simp [comeToBe_cons h, depth]

theorem comeToBe_ends {top : OpenNode} {outer : List OpenNode} (hnodes : s.nodes = top :: outer)
    (h : s.take operation = .ok (push { s with nodes := outer } top.close))
    (later : List Operation) :
    s.comeToBe (operation :: later) =
      top.close :: (push { s with nodes := outer } top.close).comeToBe later := by
  have hdepth : s.depth = (push { s with nodes := outer } top.close).depth + 1 := by
    rw [depth_push, depth, depth, hnodes, List.length_cons]
  simp [comeToBe_cons h, hdepth, hnodes]

theorem becomes_of_push {node : Node} {finished : List Node}
    (h : List.Forall₂ OpenNode.Becomes (s.push node).nodes finished) :
    List.Forall₂ OpenNode.Becomes s.nodes finished := by
  obtain ⟨maxDepth, root, nodes⟩ := s
  match nodes, h with
  | [], h => exact h
  | top :: outer, .cons htop houter => exact .cons htop.of_push houter

/-- **An open node comes to be a node with its tag or expression.** -/
theorem becomes_comeToBe (later : List Operation) (s : OpenStack) :
    List.Forall₂ OpenNode.Becomes s.nodes (s.comeToBe later) := by
  have hclosed : ∀ nodes : List OpenNode,
      List.Forall₂ OpenNode.Becomes nodes (nodes.map OpenNode.close) := by
    intro nodes
    rw [List.forall₂_map_right_iff, List.forall₂_same]
    exact fun node _ => node.becomes_close
  induction later generalizing s with
  | nil => exact hclosed s.nodes
  | cons operation later ih =>
    cases htake : s.take operation with
    | error e left =>
      rw [comeToBe, htake]
      exact hclosed s.nodes
    | ok next =>
      have hnext := ih next
      cases takes_of_take htake with
      | text content =>
        rw [comeToBe_of_depth_eq htake (depth_push ..)]
        exact becomes_of_push hnext
      | whole hwhole =>
        rw [comeToBe_of_depth_eq htake (depth_push ..)]
        exact becomes_of_push hnext
      | opens hopen =>
        obtain ⟨first, rest, -, hrest, heq⟩ := List.forall₂_cons_left_iff.mp hnext
        rw [comeToBe_opens htake, heq]
        exact hrest
      | ends hsilent hnodes =>
        rw [comeToBe_ends hnodes htake, hnodes]
        exact .cons (OpenNode.becomes_close _) (becomes_of_push hnext)
      | otherwise hnodes =>
        obtain ⟨first, rest, hfirst, hrest, heq⟩ := List.forall₂_cons_left_iff.mp hnext
        rw [comeToBe_of_depth_eq htake (by simp [depth, hnodes]), hnodes, heq]
        cases hfirst
        exact .cons (.block ..) hrest
      | nothing hsilent =>
        rw [comeToBe_of_depth_eq htake rfl]
        exact hnext

end OpenStack

/-! ### Moments -/

/-- A moment of a walk: what a stack takes, the stack before that, and what it takes later. -/
structure Moment where
  stack : OpenStack
  operation : Operation
  later : List Operation

/-- The moments of a walk, up to the first at which something cannot be taken. -/
def OpenStack.moments (s : OpenStack) : List Operation → List Moment
  | [] => []
  | operation :: later =>
    ⟨s, operation, later⟩ ::
      match s.take operation with
      | .ok next => next.moments later
      | .error _ _ => []

/-- The nodes that begin at a moment, as they are at the end of the walk: one that is whole at
once, or one that is open after the moment and was not before. -/
def Moment.begins (now : Moment) : List Node :=
  now.operation.whole?.toList ++
    match now.stack.take now.operation with
    | .ok next => (next.comeToBe now.later).take (next.depth - now.stack.depth)
    | .error _ _ => []

/-- Which nodes begin with what is taken. -/
inductive Operation.Begins : Operation → List Node → Prop
  | startTag (tag : StartTag) (children : List Node) (h : tag.selfClosing = true → children = []) :
    Begins (.token (.startTag tag)) [.element { tag with name := asciiLower tag.name } children]
  | enterBlock (expression : Expression) (children : List Node) (inverse : Option (List Node)) :
    Begins (.enterBlock expression) [.block expression children inverse]
  | comment (content : String) : Begins (.token (.comment content)) [.comment content]
  | mustache (m : Mustache) : Begins (.mustache m) [.mustache m]
  | nothing {operation : Operation} (hopen : operation.open? = none)
    (hwhole : operation.whole? = none) : Begins operation []

namespace Operation

variable {operation : Operation}

theorem begins_whole? (hopen : operation.open? = none) :
    operation.Begins operation.whole?.toList := by
  cases operation with
  | token t =>
    cases t with
    | startTag tag =>
      cases hself : tag.selfClosing with
      | true =>
        simpa [whole?, hself, Node.ofStartTag] using Begins.startTag tag [] fun _ => rfl
      | false => simp [open?, hself] at hopen
    | comment content => exact .comment content
    | text | endTag => exact .nothing rfl rfl
  | mustache m => exact .mustache m
  | enterBlock expression => cases hopen
  | feed | flushText | closeProgram | startInverse | leaveBlock => exact .nothing rfl rfl

theorem begins_of_open? {node : OpenNode} {finished : Node} (hopen : operation.open? = some node)
    (h : node.Becomes finished) : operation.Begins [finished] := by
  cases operation with
  | token t =>
    cases t with
    | startTag tag =>
      by_cases hself : tag.selfClosing = true
      · rw [open?, if_pos hself] at hopen
        cases hopen
      · rw [open?, if_neg hself] at hopen
        cases hopen
        cases h
        exact .startTag tag _ fun hclosed => absurd hclosed hself
    | text | comment | endTag => cases hopen
  | enterBlock expression =>
    cases hopen
    cases h
    exact .enterBlock ..
  | feed | mustache | flushText | closeProgram | startInverse | leaveBlock => cases hopen

end Operation

namespace Moment

variable {s next : OpenStack} {operation : Operation}

theorem begins_of_take (h : s.take operation = .ok next) (later : List Operation) :
    (Moment.mk s operation later).begins =
      operation.whole?.toList ++ (next.comeToBe later).take (next.depth - s.depth) := by
  simp only [begins, h]

/-- What does not stay open begins whole or not at all. -/
theorem begins_of_depth_le (h : s.take operation = .ok next) (hdepth : next.depth ≤ s.depth)
    (later : List Operation) :
    (Moment.mk s operation later).begins = operation.whole?.toList := by
  rw [begins_of_take h, Nat.sub_eq_zero_of_le hdepth, List.take_zero, List.append_nil]

/-- What stays open is all that begins, and comes to be what it comes to be. -/
theorem begins_of_opens {node : OpenNode} (hwhole : operation.whole? = none)
    (h : s.take operation = .ok { s with nodes := node :: s.nodes }) (later : List Operation) :
    ∃ finished, (Moment.mk s operation later).begins = [finished] ∧ node.Becomes finished ∧
      OpenStack.comeToBe { s with nodes := node :: s.nodes } later =
        finished :: s.comeToBe (operation :: later) := by
  have hbecomes := OpenStack.becomes_comeToBe later { s with nodes := node :: s.nodes }
  obtain ⟨finished, rest, hfinished, -, heq⟩ := List.forall₂_cons_left_iff.mp hbecomes
  refine ⟨finished, ?_, hfinished, ?_⟩
  · rw [begins_of_take h, hwhole, heq]
    simp [OpenStack.depth]
  · rw [OpenStack.comeToBe_opens h, heq]
    rfl

end Moment

namespace OpenStack

variable {s next : OpenStack} {operation : Operation} {later : List Operation}

theorem moments_cons (h : s.take operation = .ok next) :
    s.moments (operation :: later) = ⟨s, operation, later⟩ :: next.moments later := by
  rw [moments, h]

/-- Only what opens a node makes a stack deeper. -/
theorem depth_le_of_take (h : s.take operation = .ok next) (hopen : operation.open? = none) :
    next.depth ≤ s.depth := by
  cases takes_of_take h with
  | text content => exact (depth_push ..).le
  | whole hwhole => exact (depth_push ..).le
  | opens hnode =>
    rw [hopen] at hnode
    cases hnode
  | ends hsilent hnodes =>
    rw [depth_push, depth, depth, hnodes]
    exact Nat.le_succ _
  | otherwise hnodes => simp [depth, hnodes]
  | nothing hsilent => exact le_rfl

/-- What opens a node does only that. -/
theorem eq_of_take_of_open? {node : OpenNode} (h : s.take operation = .ok next)
    (hopen : operation.open? = some node) : next = { s with nodes := node :: s.nodes } := by
  cases takes_of_take h with
  | text content => cases hopen
  | whole hwhole =>
    rw [(Operation.isFresh_of_open? hopen).2.1] at hwhole
    cases hwhole
  | opens hnode =>
    rw [hopen] at hnode
    cases hnode
    rfl
  | otherwise hnodes => cases hopen
  | ends hsilent | nothing hsilent =>
    rw [(Operation.none_of_isSilent hsilent).2.2] at hopen
    cases hopen

/-- **What begins at a moment** is one node at most, and it has what was taken. -/
theorem begins_of_take (h : s.take operation = .ok next) (later : List Operation) :
    operation.Begins (Moment.mk s operation later).begins := by
  cases hopen : operation.open? with
  | none =>
    rw [Moment.begins_of_depth_le h (depth_le_of_take h hopen)]
    exact Operation.begins_whole? hopen
  | some node =>
    obtain rfl := eq_of_take_of_open? h hopen
    obtain ⟨finished, heq, hfinished, -⟩ :=
      Moment.begins_of_opens (Operation.isFresh_of_open? hopen).2.1 h later
    rw [heq]
    exact Operation.begins_of_open? hopen hfinished

end OpenStack

/-! ### What has begun -/

namespace Node

/-- The nodes of a row and all below them, in source order, without the texts. -/
def listed (nodes : List Node) : List Node :=
  (descendantsOf nodes).filter (!·.isText)

@[simp] theorem descendantsOf_append (first second : List Node) :
    descendantsOf (first ++ second) = descendantsOf first ++ descendantsOf second := by
  induction first with
  | nil => rfl
  | cons node rest ih => simp [descendantsOf, ih]

theorem listed_append (first second : List Node) :
    listed (first ++ second) = listed first ++ listed second := by
  simp [listed]

@[simp] theorem listed_nil : listed [] = [] := rfl

theorem listed_text (content : String) : listed [.text content] = [] := rfl

theorem listed_element (tag : StartTag) (children : List Node) :
    listed [.element tag children] = .element tag children :: listed children := by
  simp [listed, descendantsOf, withDescendants, isText, text?]

theorem listed_block (expression : Expression) (children : List Node)
    (inverse : Option (List Node)) :
    listed [.block expression children inverse] =
      .block expression children inverse :: (listed children ++ listed (inverse.getD [])) := by
  cases inverse <;>
    simp [listed, descendantsOf, withDescendants, descendantsOfInverse, isText, text?]

/-- It makes no difference to the list that a text is joined to another. -/
theorem listed_push (row : List Node) (node : Node) :
    listed (push row node).reverse = listed row.reverse ++ listed [node] := by
  unfold push
  split <;> simp [listed_append, listed_text]

theorem listed_of_isBare {node : Node} (h : node.isBare = true) : listed [node] = [node] := by
  match node with
  | .element _ [] | .comment _ | .mustache _ => rfl
  | .element _ (_ :: _) | .block .. | .text _ => cases h

end Node

namespace OpenNode

/-- The nodes in an open one and all below them. -/
def listed : OpenNode → List Node
  | element _ children => Node.listed children.reverse
  | block _ children inverse =>
    Node.listed children.reverse ++ Node.listed (inverse.getD []).reverse

theorem listed_push (node : OpenNode) (child : Node) :
    (node.push child).listed = node.listed ++ Node.listed [child] := by
  match node with
  | element _ _ => exact Node.listed_push ..
  | block _ _ none => simp [push, listed, Node.listed_push]
  | block _ _ (some _) => simp [push, listed, Node.listed_push]

theorem listed_close (node : OpenNode) : Node.listed [node.close] = node.close :: node.listed := by
  cases node with
  | element tag children => exact Node.listed_element ..
  | block expression children inverse =>
    cases inverse <;> simp [close, listed, Node.listed_block]

theorem listed_of_isFresh {node : OpenNode} (h : node.isFresh = true) : node.listed = [] := by
  match node with
  | element _ [] | block _ [] none => rfl
  | element _ (_ :: _) | block _ (_ :: _) _ | block _ [] (some _) => cases h

end OpenNode

namespace OpenStack

/-- The nodes that have begun so far, in the order in which they began, if the open ones come to be
these. -/
def begun (s : OpenStack) (finished : List Node) : List Node :=
  Node.listed s.root.reverse ++
    (List.zipWith (fun node last => last :: node.listed) s.nodes finished).reverse.flatten

variable {s next last : OpenStack} {operation : Operation} {later : List Operation}

theorem begun_cons (s : OpenStack) (top : OpenNode) (finished : Node) (rest : List Node) :
    begun { s with nodes := top :: s.nodes } (finished :: rest) =
      s.begun rest ++ finished :: top.listed := by
  simp [begun]

theorem begun_push {finished : List Node} (h : List.Forall₂ OpenNode.Becomes s.nodes finished)
    (node : Node) : (s.push node).begun finished = s.begun finished ++ Node.listed [node] := by
  obtain ⟨maxDepth, root, nodes⟩ := s
  cases h with
  | nil => simp [push, begun, Node.listed_push]
  | cons htop houter => simp [push, begun, OpenNode.listed_push]

/-- **Each thing that is taken adds what begins with it**, and moves nothing. -/
theorem begun_take (h : s.take operation = .ok next) (honce : operation.InverseOnceAt s.blocks)
    (later : List Operation) :
    next.begun (next.comeToBe later) =
      s.begun (s.comeToBe (operation :: later)) ++ (Moment.mk s operation later).begins := by
  have hbecomes := becomes_comeToBe (operation :: later) s
  cases takes_of_take h with
  | text content =>
    rw [Moment.begins_of_depth_le h (depth_push ..).le, ← comeToBe_of_depth_eq h (depth_push ..),
      begun_push hbecomes, Node.listed_text]
    rfl
  | whole hwhole =>
    rw [Moment.begins_of_depth_le h (depth_push ..).le, ← comeToBe_of_depth_eq h (depth_push ..),
      begun_push hbecomes, Node.listed_of_isBare (Operation.isBare_of_whole? hwhole).2, hwhole]
    rfl
  | opens hopen =>
    obtain ⟨finished, hbegins, -, heq⟩ :=
      Moment.begins_of_opens (Operation.isFresh_of_open? hopen).2.1 h later
    rw [hbegins, heq, begun_cons, OpenNode.listed_of_isFresh (Operation.isFresh_of_open? hopen).2.2]
  | @ends _ top outer hsilent hnodes =>
    obtain ⟨-, hwhole, hopen⟩ := Operation.none_of_isSilent hsilent
    have hrest := becomes_of_push
      (becomes_comeToBe later (push { s with nodes := outer } top.close))
    have hcons := begun_cons { s with nodes := outer } top top.close
      ((push { s with nodes := outer } top.close).comeToBe later)
    rw [Moment.begins_of_depth_le h (depth_le_of_take h hopen), hwhole, comeToBe_ends hnodes h,
      begun_push hrest, OpenNode.listed_close, ← hcons, ← hnodes]
    exact (List.append_nil _).symm
  | @otherwise expression children inverse outer hnodes =>
    have hinverse : inverse = none := by
      simpa [Operation.InverseOnceAt, blocks, hnodes, OpenNode.block?] using honce
    have hdepth : depth { s with nodes := .block expression children (some []) :: outer } =
        s.depth := by
      simp [depth, hnodes]
    rw [hnodes] at hbecomes
    obtain ⟨first, rest, -, -, heq⟩ := List.forall₂_cons_left_iff.mp hbecomes
    rw [Moment.begins_of_depth_le h hdepth.le, ← comeToBe_of_depth_eq h hdepth, heq]
    simp [begun, hnodes, hinverse, Operation.whole?, OpenNode.listed]
  | nothing hsilent =>
    rw [Moment.begins_of_depth_le h le_rfl, comeToBe_of_depth_eq h rfl,
      (Operation.none_of_isSilent hsilent).2.1]
    exact (List.append_nil _).symm

/-- **All nodes that begin in the course of a walk are listed**, in the order in which they
begin. -/
theorem begun_takesAll {operations : List Operation} (h : last.TakesAll s operations)
    (honce : Operation.InverseOnce s.blocks operations) :
    last.begun (last.nodes.map OpenNode.close) =
      s.begun (s.comeToBe operations) ++ (s.moments operations).flatMap Moment.begins := by
  induction h with
  | done => exact (List.append_nil _).symm
  | next htake hlater ih =>
    have hblocks := blocks_take htake
    rw [ih (hblocks ▸ honce.2), begun_take htake honce.1, moments_cons htake, List.flatMap_cons,
      List.append_assoc]

end OpenStack

/-! ### Searches -/

/-- Does an element with this name begin here, whatever the case of the letters? -/
def Operation.startsElement (name : String) (operation : Operation) : Bool :=
  operation.startTag?.any (sameIgnoringCase ·.name name)

/-- Is a block with this name entered here? -/
def Operation.entersBlock (name : String) (operation : Operation) : Bool :=
  operation.entered?.any (·.path == name)

namespace Operation.Begins

variable {operation : Operation} {nodes : List Node}

theorem of_startTag {tag : StartTag} (h : (Operation.token (.startTag tag)).Begins nodes) :
    ∃ children, nodes = [.element { tag with name := asciiLower tag.name } children] ∧
      (tag.selfClosing = true → children = []) := by
  cases h with
  | startTag tag children hself => exact ⟨children, rfl, hself⟩
  | nothing hopen hwhole =>
    -- a start tag opens a node or is a whole one
    by_cases hself : tag.selfClosing = true
    · rw [whole?, if_pos hself] at hwhole
      cases hwhole
    · rw [open?, if_neg hself] at hopen
      cases hopen

theorem of_enterBlock {expression : Expression}
    (h : (Operation.enterBlock expression).Begins nodes) :
    ∃ children inverse, nodes = [.block expression children inverse] := by
  cases h with
  | enterBlock => exact ⟨_, _, rfl⟩
  | nothing hopen => cases hopen

/-- An element is found by its name exactly if it begins with a start tag of that name. -/
theorem filter_element (h : operation.Begins nodes) (name : String) :
    (nodes.filter fun node => (node.tag?.map (·.name)) == some (asciiLower name)) =
      if operation.startsElement name then nodes else [] := by
  cases h with
  | startTag tag children hself =>
    simp [startsElement, startTag?, Node.tag?, sameIgnoringCase, List.filter_cons]
  | enterBlock | comment | mustache => rfl
  | nothing => simp

/-- A block is found by its name exactly if it is entered under that name. -/
theorem filter_block (h : operation.Begins nodes) (name : String) :
    (nodes.filter fun node => node.blockName? == some name) =
      if operation.entersBlock name then nodes else [] := by
  cases h with
  | enterBlock expression children inverse =>
    simp [entersBlock, entered?, Node.blockName?, List.filter_cons]
  | startTag | comment | mustache => rfl
  | nothing => simp

end Operation.Begins

/-- What is left of rows, each of which stays or goes as a whole, are the rows that stay. -/
theorem filter_flatMap_of_whole {α β : Type} {rows : List α} {row : α → List β} {p : β → Bool}
    {q : α → Bool} (h : ∀ a ∈ rows, (row a).filter p = if q a then row a else []) :
    (rows.flatMap row).filter p = (rows.filter q).flatMap row := by
  induction rows with
  | nil => rfl
  | cons a rest ih =>
    rw [List.forall_mem_cons] at h
    rw [List.flatMap_cons, List.filter_append, h.1, ih h.2]
    cases hq : q a <;> simp [hq]

namespace OpenStack

variable {s last : OpenStack} {operations : List Operation}

/-- In a walk that succeeds each thing can be taken at its moment. -/
theorem taken_moments (h : last.TakesAll s operations) :
    ∀ now ∈ s.moments operations, ∃ next, now.stack.take now.operation = .ok next := by
  induction h with
  | done =>
    intro now hmem
    cases hmem
  | @next s next operation later htake hlater ih =>
    rw [moments_cons htake, List.forall_mem_cons]
    exact ⟨⟨next, htake⟩, ih⟩

/-- The moments of a walk that succeeds are those of all that is taken. -/
theorem operations_moments (h : last.TakesAll s operations) :
    (s.moments operations).map (·.operation) = operations := by
  induction h with
  | done => rfl
  | next htake hlater ih => rw [moments_cons htake, List.map_cons, ih]

end OpenStack

/-- The moments of the walk over a program. -/
def moments (program : Program) (maxDepth : Nat) : List Moment :=
  OpenStack.moments { maxDepth } (history program maxDepth)

section Programs

variable {program : Program} {maxDepth : Nat} {nodes : List Node}

theorem takesAll_history_of_assemble (h : assemble program maxDepth = .ok nodes) :
    ∃ last : OpenStack, last.TakesAll { maxDepth } (history program maxDepth) ∧
      last.nodes = [] ∧ nodes = last.root.reverse := by
  obtain ⟨last, htake, hlast⟩ := takeAll_history_of_assemble h
  exact ⟨last, OpenStack.takesAll_of_takeAll _ htake, hlast⟩

/-- The moments of the walk over a program are those of its history. -/
theorem operations_moments_of_assemble (h : assemble program maxDepth = .ok nodes) :
    (moments program maxDepth).map (·.operation) = history program maxDepth := by
  obtain ⟨last, htakes, -⟩ := takesAll_history_of_assemble h
  exact OpenStack.operations_moments htakes

/-- What begins at a moment of the walk over a program has what is taken at that moment. -/
theorem begins_of_mem_moments (h : assemble program maxDepth = .ok nodes) :
    ∀ now ∈ moments program maxDepth, now.operation.Begins now.begins := by
  obtain ⟨last, htakes, -⟩ := takesAll_history_of_assemble h
  intro now hmem
  obtain ⟨next, hnext⟩ := OpenStack.taken_moments htakes now hmem
  exact OpenStack.begins_of_take hnext now.later

/-- **A tree lists the nodes in the order in which they began.** -/
theorem listed_of_assemble (h : assemble program maxDepth = .ok nodes) :
    Node.listed nodes = (moments program maxDepth).flatMap Moment.begins := by
  obtain ⟨last, htakes, hclosed, rfl⟩ := takesAll_history_of_assemble h
  have hbegun := OpenStack.begun_takesAll htakes (inverseOnce_history_of_assemble h)
  have hnone : OpenStack.comeToBe { maxDepth } (history program maxDepth) = [] := by
    have hbecomes := OpenStack.becomes_comeToBe (history program maxDepth) { maxDepth }
    exact List.forall₂_nil_left_iff.mp hbecomes
  simpa [OpenStack.begun, hclosed, hnone, moments] using hbegun

/-- **A search finds what begins at the moments that it is about**, if it is no search for texts,
and what is taken tells of each node that begins whether it is found. -/
theorem search_of_assemble (h : assemble program maxDepth = .ok nodes) {p : Node → Bool}
    {q : Operation → Bool} (htext : ∀ content, p (.text content) = false)
    (hbegins : ∀ {operation : Operation} {nodes : List Node}, operation.Begins nodes →
      nodes.filter p = if q operation then nodes else []) :
    (Node.descendantsOf nodes).filter p =
      ((moments program maxDepth).filter fun now => q now.operation).flatMap Moment.begins := by
  have hwhole := filter_flatMap_of_whole fun now hmem => hbegins (begins_of_mem_moments h now hmem)
  rw [← hwhole, ← listed_of_assemble h, Node.listed, List.filter_filter]
  refine List.filter_congr fun node _ => ?_
  cases node <;> simp [Node.isText, Node.text?, htext]

end Programs

end TemplateTree
