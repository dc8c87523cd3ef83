/-
Trees are well formed.

Whatever a program says, its tree has no empty text in it and no two texts side by side,
no children in an element that ends itself, and no tag, attribute or value that could not
have been read.  And it nests no deeper than it may.

Three layers have a share in this.  The lexer hands out well-formed tokens as long as what
it has in hand fits its state, so an expression that is put into the tag or comment under
construction has to leave something that fits.  The stack keeps well-formed rows.  And a
node is closed in the room that was left for it when it was opened: `WithinRoom` counts, at
each level of the stack, how many more levels there may be inside.
-/
import TemplateTree.Proofs.Pending
import TemplateTree.Proofs.RoundTrip

namespace TemplateTree

/-! ### What the lexer has in hand -/

namespace LexerState

/-- A start tag under construction does not end itself so far. -/
theorem Fits.of_startTag {state : LexerState} {kept : List Attribute} {tag : StartTag}
    (h : state.Fits kept (some (.startTag tag))) :
    tag.selfClosing = false ∧ tag.toTag.WellFormed ∧ state.Finishes kept tag.attributes := by
  cases h with
  | tag htoken htag hstate =>
    cases htoken with
    | startTag tag modifiers => exact ⟨rfl, htag, hstate⟩

/-- A value goes on in a state that has a last attribute to go on with. -/
theorem finishes_valueState {state : LexerState} (h : state.isInAttributeValue = true)
    (earlier : List Attribute) (last : Attribute) :
    (Assembly.valueState state).Finishes [] (earlier ++ [last]) := by
  cases state with
  | beforeAttributeValue | attributeValueDoubleQuoted | attributeValueSingleQuoted
  | attributeValueUnquoted =>
    exact ⟨earlier, last, rfl, by simp⟩
  | _ => cases h

theorem fits_startTag {state : LexerState} {kept : List Attribute} {tag : StartTag}
    (hself : tag.selfClosing = false) (htag : tag.toTag.WellFormed)
    (hstate : state.Finishes kept tag.attributes) : state.Fits kept (some (.startTag tag)) := by
  obtain ⟨data, selfClosing, modifiers⟩ := tag
  simp only at hself
  subst hself
  exact .tag (.startTag data modifiers) htag hstate

end LexerState

namespace Lexer

/-- A text that is handed out is not empty, and leaves nothing in hand. -/
theorem Fits.takeText {l : Lexer} (h : l.Fits []) :
    l.takeText.2.Fits [] ∧ ∀ content ∈ l.takeText.1, content ≠ "" := by
  unfold Fits at h ⊢
  unfold Lexer.takeText
  split
  · rename_i content hstate hpending
    rw [hstate, hpending] at h
    cases h with
    | text hne => exact ⟨by rw [hstate]; exact .data, by simpa using hne⟩
    | tag htoken htag hstate => exact hstate.elim
  · exact ⟨h, by simp⟩

end Lexer

namespace Assembly

/-- Where an expression goes.  Between nodes it goes to the stack, and inside a start tag or a
comment to the token in hand; it may stand nowhere else. -/
inductive Places (a : Assembly) (m : Mustache) : Assembly → Prop
  | node (hstate : a.lexer.state = .data) :
    Places a m { a with stack := a.stack.push (.mustache m) }
  | modifier {tag : StartTag} (hstate : a.lexer.state.isInTag = true)
      (hpending : a.lexer.pending = some (.startTag tag)) :
    Places a m
      { a with lexer := { a.lexer with pending := some (.startTag (tag.addModifier m)) } }
  | value {tag : StartTag} {earlier : List Attribute} {last : Attribute}
      (hstate : a.lexer.state.isInAttributeValue = true)
      (hpending : a.lexer.pending = some (.startTag tag))
      (hlast : tag.attributes = earlier ++ [last]) :
    Places a m { a with lexer := { a.lexer with
      state := valueState a.lexer.state
      pending := some (.startTag { tag with attributes := earlier ++ [last.pushMustache m] }) } }
  | comment {content : String} (hstate : a.lexer.state.isInComment = true)
      (hpending : a.lexer.pending = some (.comment content)) :
    Places a m { a with lexer := { a.lexer with
      state := .comment
      pending := some (.comment (content ++ Lexer.heldDashes a.lexer.state ++ m.text)) } }

variable {a b : Assembly} {m : Mustache}

theorem places_of_addModifier (hstate : a.lexer.state.isInTag = true)
    (h : a.addModifier m = some b) : a.Places m b := by
  unfold addModifier at h
  split at h
  · rename_i tag hpending
    cases h
    exact .modifier hstate hpending
  · cases h

theorem places_of_addToValue (hstate : a.lexer.state.isInAttributeValue = true)
    (h : a.addToValue m = some b) : a.Places m b := by
  unfold addToValue at h
  split at h
  · rename_i tag hpending
    unfold Tag.addMustacheToAttributeValue? at h
    split at h
    · cases h
    · rename_i hne
      obtain ⟨earlier, last, hlast⟩ := (List.eq_nil_or_concat' tag.attributes).resolve_left hne
      have hchanged : Tag.modifyLast (·.pushMustache m) tag.attributes =
          earlier ++ [last.pushMustache m] := by
        rw [hlast, Tag.modifyLast_append]
      rw [hchanged] at h
      cases h
      exact .value hstate hpending hlast
  · cases h

theorem places_of_addToComment (h : a.addToComment m = some b) : a.Places m b := by
  obtain ⟨lexer, hfold, rfl⟩ := Option.map_eq_some_iff.mp h
  unfold Lexer.foldIntoComment? at hfold
  split at hfold
  · rename_i content hstate hpending
    cases hfold
    exact .comment hstate hpending
  · cases hfold

/-- **An expression that is placed goes to one of four places.** -/
theorem places_of_placeMustache (h : a.placeMustache m = some b) : a.Places m b := by
  unfold placeMustache at h
  cases hstate : a.lexer.state with
  | data =>
    simp only [hstate, Option.some.injEq] at h
    rw [← h]
    exact .node hstate
  | tagOpen | endTagOpen | markupDeclaration =>
    simp only [hstate] at h
    cases h
  | tagName | beforeAttributeName | attributeName | afterAttributeValueQuoted
  | selfClosingStartTag =>
    simp only [hstate] at h
    exact places_of_addModifier (by rw [hstate]; rfl) h
  | beforeAttributeValue | attributeValueDoubleQuoted | attributeValueSingleQuoted
  | attributeValueUnquoted =>
    simp only [hstate] at h
    exact places_of_addToValue (by rw [hstate]; rfl) h
  | commentStart | commentStartDash | comment | commentEndDash | commentEnd =>
    simp only [hstate] at h
    exact places_of_addToComment h

theorem fits_flushText (h : a.lexer.Fits []) : a.flushText.lexer.Fits [] := by
  have htake := h.takeText.1
  unfold flushText
  split
  · rename_i content lexer heq
    rwa [heq] at htake
  · exact h

theorem fits_places (h : a.lexer.Fits []) (hplaces : a.Places m b) : b.lexer.Fits [] := by
  unfold Lexer.Fits at h ⊢
  cases hplaces with
  | node hstate => exact h
  | modifier hstate hpending =>
    rw [hpending] at h
    obtain ⟨hself, htag, hfinishes⟩ := h.of_startTag
    exact LexerState.fits_startTag hself htag hfinishes
  | @value tag earlier last hstate hpending hlast =>
    rw [hpending] at h
    obtain ⟨hself, htag, -⟩ := h.of_startTag
    have hchanged := htag.modifyLast fun _ ha => ha.pushMustache m
    rw [hlast, Tag.modifyLast_append] at hchanged
    exact LexerState.fits_startTag hself hchanged (LexerState.finishes_valueState hstate _ _)
  | comment hstate hpending => exact .comment _

theorem lexer_ofStack (a : Assembly) (step : Step OpenStack) :
    (Outcome.ofStack a step).assembly.lexer = a.lexer := by
  cases step <;> rfl

/-- What is true of a stack before a step that fails is true of it afterwards. -/
theorem stack_ofStack {Holds : OpenStack → Prop} {a : Assembly} (h : Holds a.stack)
    {step : Step OpenStack} (hkeeps : step.Keeps a.stack)
    (hstep : ∀ stack, step = .ok stack → Holds stack) :
    Holds (Outcome.ofStack a step).assembly.stack := by
  cases step with
  | ok stack => exact hstep stack rfl
  | error e left =>
    rw [hkeeps e left rfl]
    exact h

/-- What is true of a lexer after it read, after its text was taken and after an expression
was placed, is true of it after everything that can be done, whether it fails or not. -/
theorem lexer_apply {Holds : Lexer → Prop}
    (hread : ∀ (l : Lexer) (text : List Char), Holds l → Holds (l.read text).2)
    (hflush : ∀ a : Assembly, Holds a.lexer → Holds a.flushText.lexer)
    (hplace : ∀ {a b : Assembly} {m : Mustache}, Holds a.lexer → a.Places m b → Holds b.lexer)
    {a : Assembly} (h : Holds a.lexer) (operation : Operation) :
    Holds (a.apply operation).assembly.lexer := by
  have hflushed := hflush a h
  cases operation with
  | feed text =>
    rw [apply, feed_eq_mergeTokens]
    exact hread a.lexer text.toList h
  | token t =>
    rw [apply, mergeToken, lexer_ofStack]
    exact h
  | mustache m =>
    rw [apply, mergeMustache]
    split
    · rename_i placed hplaced
      exact hplace hflushed (places_of_placeMustache hplaced)
    · exact hflushed
  | enterBlock expression =>
    rw [apply, enterBlock]
    split
    · rw [lexer_ofStack]
      exact hflushed
    · exact hflushed
  | flushText => exact hflushed
  | closeProgram =>
    rw [apply, closeProgram]
    split <;> exact hflushed
  | startInverse =>
    rw [apply, startInverse, lexer_ofStack]
    exact h
  | leaveBlock =>
    rw [apply, leaveBlock, lexer_ofStack]
    exact h

/-- **What the lexer has in hand fits its state after everything that can be done.** -/
theorem fits_apply (h : a.lexer.Fits []) (operation : Operation) :
    (a.apply operation).assembly.lexer.Fits [] :=
  @lexer_apply (Lexer.Fits []) (fun _ text h => (Lexer.fits_read h text).1)
    (fun _ h => fits_flushText h) fits_places a h operation

end Assembly

/-! ### Well-formed rows -/

namespace Node

mutual

/-- A node as it is read. -/
def WellFormed : Node → Prop
  | .element tag children =>
    (tag.toTag.WellFormed ∧ (tag.selfClosing = true → children = [])) ∧
      (AllWellFormed children ∧ children.IsChain Apart)
  | .block _ children inverse =>
    (AllWellFormed children ∧ children.IsChain Apart) ∧ InverseWellFormed inverse
  | .text content => content ≠ ""
  | .comment _ | .mustache _ => True

/-- Nodes each of which is as it is read. -/
def AllWellFormed : List Node → Prop
  | [] => True
  | node :: rest => WellFormed node ∧ AllWellFormed rest

/-- The same for the row for the other case, if there is one. -/
def InverseWellFormed : Option (List Node) → Prop
  | none => True
  | some nodes => AllWellFormed nodes ∧ nodes.IsChain Apart

end

/-- A row of nodes as it is read: no two texts in it are side by side. -/
def WellFormedRow (nodes : List Node) : Prop :=
  AllWellFormed nodes ∧ nodes.IsChain Apart

theorem allWellFormed_iff {nodes : List Node} :
    AllWellFormed nodes ↔ ∀ node ∈ nodes, node.WellFormed := by
  induction nodes with
  | nil => simp [AllWellFormed]
  | cons node rest ih => simp [AllWellFormed, ih]

theorem nestingOf_le_iff {elements : Bool} {nodes : List Node} {room : Nat} :
    nestingOf elements nodes ≤ room ↔ ∀ node ∈ nodes, node.nesting elements ≤ room := by
  induction nodes with
  | nil => simp [nestingOf]
  | cons node rest ih => simp [nestingOf, ih]

theorem exists_text_of_isText {node : Node} (h : node.isText = true) :
    ∃ content, node = .text content := by
  cases node with
  | text content => exact ⟨content, rfl⟩
  | _ => cases h

theorem Apart.symm {first second : Node} (h : first.Apart second) : second.Apart first :=
  fun hboth => h hboth.symm

/-- Which end of a row comes first makes no difference to its neighbours. -/
theorem isChain_reverse {nodes : List Node} (h : nodes.IsChain Apart) :
    nodes.reverse.IsChain Apart := by
  rw [List.isChain_reverse]
  exact h.imp fun _ _ hapart => hapart.symm

/-- **A node that is added is joined or apart.** -/
theorem isChain_push {nodes : List Node} (h : nodes.IsChain Apart) (node : Node) :
    (push nodes node).IsChain Apart := by
  unfold push
  split
  · rename_i last earlier content
    obtain ⟨hnext, hrest⟩ := List.isChain_cons.mp h
    -- the text has the neighbour that the text in its place had
    exact List.isChain_cons.mpr ⟨fun next hmem hboth => hnext next hmem ⟨rfl, hboth.2⟩, hrest⟩
  · rename_i hother
    refine List.isChain_cons.mpr ⟨?_, h⟩
    intro last hlast hboth
    obtain ⟨content, rfl⟩ := exists_text_of_isText hboth.1
    obtain ⟨before, rfl⟩ := exists_text_of_isText hboth.2
    obtain ⟨earlier, rfl⟩ := List.head?_eq_some_iff.mp hlast
    exact hother before earlier content rfl rfl

/-- A row that is well formed and nests at most `room` deep.  Which end comes first makes no
difference to it. -/
structure WithinRoom (room : Nat) (nodes : List Node) : Prop where
  each : ∀ node ∈ nodes, node.WellFormed ∧ node.nesting true ≤ room
  apart : nodes.IsChain Apart

namespace WithinRoom

variable {room : Nat} {nodes : List Node}

theorem nil (room : Nat) : WithinRoom room [] :=
  ⟨by simp, .nil⟩

theorem reverse (h : WithinRoom room nodes) : WithinRoom room nodes.reverse :=
  ⟨fun node hmem => h.each node (List.mem_reverse.mp hmem), isChain_reverse h.apart⟩

theorem wellFormedRow (h : WithinRoom room nodes) : WellFormedRow nodes :=
  ⟨allWellFormed_iff.mpr fun node hmem => (h.each node hmem).1, h.apart⟩

theorem nestingOf_le (h : WithinRoom room nodes) : nestingOf true nodes ≤ room :=
  nestingOf_le_iff.mpr fun node hmem => (h.each node hmem).2

theorem push (h : WithinRoom room nodes) {node : Node} (hnode : node.WellFormed)
    (hroom : node.nesting true ≤ room) : WithinRoom room (Node.push nodes node) := by
  refine ⟨?_, isChain_push h.apart node⟩
  unfold Node.push
  split
  · rename_i last earlier content
    have hjoined : last ++ content ≠ "" := fun heq => hnode (String.append_eq_empty_iff.mp heq).2
    exact List.forall_mem_cons.mpr
      ⟨⟨hjoined, Nat.zero_le _⟩, (List.forall_mem_cons.mp h.each).2⟩
  · exact List.forall_mem_cons.mpr ⟨⟨hnode, hroom⟩, h.each⟩

end WithinRoom

end Node

/-! ### Well-formed stacks -/

namespace OpenNode

/-- An open node with well-formed rows, which nest at most `room` deep. -/
def WithinRoom (room : Nat) : OpenNode → Prop
  | element tag children =>
    tag.toTag.WellFormed ∧ tag.selfClosing = false ∧ Node.WithinRoom room children
  | block _ children inverse =>
    Node.WithinRoom room children ∧ ∀ nodes ∈ inverse, Node.WithinRoom room nodes

/-- Open nodes, innermost first, each with the room that the ones outside of it leave. -/
def Nested (limit : Nat) : Nat → List OpenNode → Prop
  | room, [] => room = limit
  | room, top :: outer => top.WithinRoom room ∧ Nested limit (room + 1) outer

variable {room : Nat} {node : OpenNode}

theorem WithinRoom.push (h : node.WithinRoom room) {child : Node} (hchild : child.WellFormed)
    (hroom : child.nesting true ≤ room) : (node.push child).WithinRoom room := by
  cases node with
  | element tag children => exact ⟨h.1, h.2.1, h.2.2.push hchild hroom⟩
  | block expression children inverse =>
    cases inverse with
    | none => exact ⟨h.1.push hchild hroom, by simp⟩
    | some inverse => exact ⟨h.1, by simpa using (h.2 inverse rfl).push hchild hroom⟩

/-- A node that is closed takes up the room that it left, and one level more. -/
theorem WithinRoom.close (h : node.WithinRoom room) :
    node.close.WellFormed ∧ node.close.nesting true ≤ room + 1 := by
  cases node with
  | element tag children =>
    obtain ⟨htag, hself, hchildren⟩ := h
    have hrow := hchildren.reverse
    refine ⟨⟨⟨htag, by simp [hself]⟩, hrow.wellFormedRow⟩, ?_⟩
    simpa [OpenNode.close, Node.nesting, hself] using hrow.nestingOf_le
  | block expression children inverse =>
    obtain ⟨hchildren, hinverse⟩ := h
    have hrow := hchildren.reverse
    cases inverse with
    | none =>
      refine ⟨⟨hrow.wellFormedRow, trivial⟩, ?_⟩
      simpa [OpenNode.close, Node.nesting, Node.nestingOfInverse] using hrow.nestingOf_le
    | some nodes =>
      have hother := (hinverse nodes rfl).reverse
      refine ⟨⟨hrow.wellFormedRow, hother.wellFormedRow⟩, ?_⟩
      simpa [OpenNode.close, Node.nesting, Node.nestingOfInverse] using
        ⟨hrow.nestingOf_le, hother.nestingOf_le⟩

theorem Nested.length_add :
    ∀ {nodes : List OpenNode} {limit room : Nat}, Nested limit room nodes →
      room + nodes.length = limit := by
  intro nodes
  induction nodes with
  | nil => intro limit room h; exact h
  | cons top outer ih =>
    intro limit room h
    have houter := ih h.2
    simp only [List.length_cons]
    omega

end OpenNode

namespace OpenStack

/-- A stack of well-formed rows with room for `room` more open nodes. -/
structure WithinRoom (limit room : Nat) (s : OpenStack) : Prop where
  maxDepth : s.maxDepth = limit
  root : Node.WithinRoom limit s.root
  nodes : OpenNode.Nested limit room s.nodes

/-- A stack of well-formed rows, whatever room there is. -/
def WellFormed (limit : Nat) (s : OpenStack) : Prop :=
  ∃ room, s.WithinRoom limit room

theorem WithinRoom.push {limit room : Nat} {s : OpenStack} (h : s.WithinRoom limit room)
    {node : Node} (hnode : node.WellFormed) (hroom : node.nesting true ≤ room) :
    (s.push node).WithinRoom limit room := by
  obtain ⟨maxDepth, root, nodes⟩ := s
  obtain ⟨hdepth, hroot, hnodes⟩ := h
  cases nodes with
  | nil => exact ⟨hdepth, hroot.push hnode (hroom.trans_eq hnodes), hnodes⟩
  | cons top outer => exact ⟨hdepth, hroot, hnodes.1.push hnode hroom, hnodes.2⟩

namespace WellFormed

variable {limit : Nat} {s s' : OpenStack}

theorem empty (maxDepth : Nat) : WellFormed maxDepth { maxDepth } :=
  ⟨maxDepth, rfl, .nil _, rfl⟩

/-- A node in which nothing nests needs no room. -/
theorem push (h : s.WellFormed limit) {node : Node} (hnode : node.WellFormed)
    (hflat : node.nesting true = 0) : (s.push node).WellFormed limit := by
  obtain ⟨room, hstack⟩ := h
  exact ⟨room, hstack.push hnode (by omega)⟩

/-- A node opens in the room that is left, and leaves one level less. -/
theorem openNode (h : s.WellFormed limit) {node : OpenNode} (hnode : ∀ room, node.WithinRoom room)
    (hopen : s.openNode node = .ok s') : s'.WellFormed limit := by
  obtain ⟨room, hstack⟩ := h
  unfold OpenStack.openNode at hopen
  split at hopen
  · cases hopen
  · rename_i hdepth
    cases hopen
    have hlength := hstack.nodes.length_add
    have hsome : room ≠ 0 := by
      rw [hstack.maxDepth, OpenStack.depth] at hdepth
      omega
    obtain ⟨less, rfl⟩ := Nat.exists_eq_succ_of_ne_zero hsome
    exact ⟨less, hstack.maxDepth, hstack.root, hnode less, hstack.nodes⟩

/-- The innermost node is closed into the room around it. -/
theorem close (h : s.WellFormed limit) {top : OpenNode} {outer : List OpenNode}
    (hnodes : s.nodes = top :: outer) :
    (OpenStack.push { s with nodes := outer } top.close).WellFormed limit := by
  obtain ⟨room, hdepth, hroot, hall⟩ := h
  rw [hnodes] at hall
  obtain ⟨hwell, hnesting⟩ := hall.1.close
  have houter : WithinRoom limit (room + 1) { s with nodes := outer } := ⟨hdepth, hroot, hall.2⟩
  exact ⟨room + 1, houter.push hwell hnesting⟩

theorem openElement (h : s.WellFormed limit) {tag : StartTag} (htag : tag.toTag.WellFormed)
    (hopen : s.openElement tag = .ok s') : s'.WellFormed limit := by
  rw [openElement_of_isLower htag.name.isLower] at hopen
  split at hopen
  · rename_i hself
    cases hopen
    refine h.push ⟨⟨htag, fun _ => rfl⟩, trivial, .nil⟩ ?_
    simp [Node.nesting, Node.nestingOf, hself]
  · rename_i hself
    have hnode : ∀ room, (OpenNode.element tag []).WithinRoom room := fun room =>
      ⟨htag, by simpa using hself, .nil room⟩
    exact h.openNode hnode hopen

theorem closeElement (h : s.WellFormed limit) {name : String}
    (hclose : s.closeElement name = .ok s') : s'.WellFormed limit := by
  unfold OpenStack.closeElement at hclose
  split at hclose
  · rename_i tag children outer hnodes
    split at hclose
    · cases hclose
      exact h.close hnodes
    · cases hclose
  · cases hclose

/-- **A well-formed token keeps the stack well formed.** -/
theorem mergeToken (h : s.WellFormed limit) {token : Token} (htoken : token.WellFormed)
    (hmerge : s.mergeToken token = .ok s') : s'.WellFormed limit := by
  cases token with
  | text content =>
    cases hmerge
    exact h.push htoken rfl
  | comment content =>
    cases hmerge
    exact h.push trivial rfl
  | startTag tag => exact h.openElement htoken hmerge
  | endTag tag => exact h.closeElement hmerge

theorem openBlock (h : s.WellFormed limit) {expression : Expression}
    (hopen : s.openBlock expression = .ok s') : s'.WellFormed limit := by
  have hnode : ∀ room, (OpenNode.block expression [] none).WithinRoom room := fun room =>
    ⟨.nil room, by simp⟩
  exact h.openNode hnode hopen

theorem startInverse (h : s.WellFormed limit) (hstart : s.startInverse = .ok s') :
    s'.WellFormed limit := by
  obtain ⟨room, hdepth, hroot, hall⟩ := h
  unfold OpenStack.startInverse at hstart
  split at hstart
  · rename_i expression children inverse outer hnodes
    cases hstart
    rw [hnodes] at hall
    exact ⟨room, hdepth, hroot, ⟨hall.1.1, by simpa using .nil room⟩, hall.2⟩
  · cases hstart

theorem leaveBlock (h : s.WellFormed limit) (hleave : s.leaveBlock = .ok s') :
    s'.WellFormed limit := by
  unfold OpenStack.leaveBlock at hleave
  split at hleave
  · rename_i expression children inverse outer hnodes
    cases hleave
    exact h.close hnodes
  · cases hleave

end WellFormed

end OpenStack

/-! ### Well-formed assemblies -/

/-- The token that an operation brings, if it does not make the lexer read it. -/
def Operation.token? : Operation → Option Token
  | .token t => some t
  | _ => none

/-- An operation that brings no token, or a well-formed one. -/
def Operation.WellFormed : Operation → Prop
  | .token t => t.WellFormed
  | _ => True

theorem Operation.wellFormed_of_token? {operation : Operation} (h : operation.token? = none) :
    operation.WellFormed := by
  cases operation with
  | token t => cases h
  | _ => trivial

namespace Assembly

/-- An assembly whose lexer has in hand what fits, and whose stack is well formed. -/
structure WellFormed (limit : Nat) (a : Assembly) : Prop where
  lexer : a.lexer.Fits []
  stack : a.stack.WellFormed limit

theorem WellFormed.fresh (maxDepth : Nat) : WellFormed maxDepth (Assembly.fresh maxDepth) :=
  ⟨LexerState.Fits.data, .empty maxDepth⟩

variable {limit : Nat} {a b : Assembly}

theorem wellFormed_mergeTokens :
    ∀ (tokens : List Token) {a : Assembly}, a.stack.WellFormed limit →
      (∀ token ∈ tokens, token.WellFormed) →
      (a.mergeTokens tokens).assembly.stack.WellFormed limit := by
  intro tokens
  induction tokens with
  | nil => intro a h _; exact h
  | cons token rest ih =>
    intro a h htokens
    obtain ⟨htoken, hrest⟩ := List.forall_mem_cons.mp htokens
    have hfirst : (a.mergeToken token).assembly.stack.WellFormed limit :=
      stack_ofStack h (a.stack.keeps_mergeToken token) fun _ hmerge => h.mergeToken htoken hmerge
    rw [mergeTokens, Outcome.andThen]
    split
    · exact ih hfirst hrest
    · exact hfirst

theorem WellFormed.flushText (h : a.WellFormed limit) : a.flushText.WellFormed limit := by
  refine ⟨fits_flushText h.lexer, ?_⟩
  unfold Assembly.flushText
  split
  · rename_i content lexer htake
    have hne : content ≠ "" := h.lexer.takeText.2 content (by simp [htake])
    exact h.stack.push hne rfl
  · exact h.stack

theorem wellFormed_places (h : a.stack.WellFormed limit) {m : Mustache}
    (hplaces : a.Places m b) : b.stack.WellFormed limit := by
  cases hplaces with
  | node hstate => exact h.push trivial rfl
  | _ => exact h

/-- **Whatever is done, an assembly stays well formed**, whether it fails or not. -/
theorem WellFormed.apply (h : a.WellFormed limit) {operation : Operation}
    (hoperation : operation.WellFormed) : (a.apply operation).assembly.WellFormed limit := by
  refine ⟨fits_apply h.lexer operation, ?_⟩
  have hflush := h.flushText.stack
  cases operation with
  | feed text =>
    rw [Assembly.apply, feed_eq_mergeTokens]
    exact wellFormed_mergeTokens _ h.stack (Lexer.fits_read h.lexer text.toList).2
  | token t =>
    exact stack_ofStack h.stack (a.stack.keeps_mergeToken t)
      fun _ hmerge => h.stack.mergeToken hoperation hmerge
  | mustache m =>
    rw [Assembly.apply, mergeMustache]
    split
    · rename_i placed hplace
      exact wellFormed_places hflush (places_of_placeMustache hplace)
    · exact hflush
  | enterBlock expression =>
    rw [Assembly.apply, enterBlock]
    split
    · exact stack_ofStack hflush (a.flushText.stack.keeps_openBlock expression)
        fun _ hopen => hflush.openBlock hopen
    · exact hflush
  | flushText => exact hflush
  | closeProgram =>
    rw [Assembly.apply, closeProgram]
    split <;> exact hflush
  | startInverse =>
    exact stack_ofStack h.stack a.stack.keeps_startInverse
      fun _ hstart => h.stack.startInverse hstart
  | leaveBlock =>
    exact stack_ofStack h.stack a.stack.keeps_leaveBlock fun _ hleave => h.stack.leaveBlock hleave

theorem WellFormed.run :
    ∀ (operations : List Operation) {a : Assembly}, a.WellFormed limit →
      (∀ operation ∈ operations, operation.WellFormed) →
      (a.run operations).assembly.WellFormed limit := by
  intro operations
  induction operations with
  | nil => intro a h _; exact h
  | cons operation rest ih =>
    intro a h hoperations
    obtain ⟨hoperation, hrest⟩ := List.forall_mem_cons.mp hoperations
    have hfirst := h.apply hoperation
    rw [Assembly.run, Outcome.andThen]
    split
    · exact ih hfirst hrest
    · exact hfirst

/-- There is a tree if nothing is half read and nothing is open. -/
theorem finish_eq_ok_iff {a : Assembly} {nodes : List Node} :
    a.finish = .ok nodes ↔ a.flushText.lexer.pending = none ∧ a.flushText.stack.nodes = [] ∧
      nodes = a.flushText.stack.root.reverse := by
  unfold finish
  cases hpending : a.flushText.lexer.pending with
  | some token => simp [hpending]
  | none =>
    cases hnodes : a.flushText.stack.nodes with
    | nil => simp [hpending, hnodes, OpenStack.depth, eq_comm]
    | cons top outer => simp [hpending, hnodes, OpenStack.depth]

theorem WellFormed.finish {limit : Nat} {a : Assembly} (h : a.WellFormed limit)
    {nodes : List Node} (hfinish : a.finish = .ok nodes) : Node.WithinRoom limit nodes := by
  obtain ⟨-, -, rfl⟩ := finish_eq_ok_iff.mp hfinish
  obtain ⟨room, hstack⟩ := h.flushText.stack
  exact hstack.root.reverse

end Assembly

/-- A program brings no tokens, it makes the lexer read them. -/
theorem Statement.token?_operationsOf (program : Program) :
    ∀ operation ∈ operationsOf program, operation.token? = none := by
  intro operation hmem
  rw [operationsOf_eq] at hmem
  obtain ⟨event, -, hevent⟩ := List.mem_flatMap.mp hmem
  cases event with
  | text content | mustache m | opening expression =>
    rw [List.mem_singleton.mp hevent]
    rfl
  | otherwise | closing name =>
    simp only [Event.operations, List.mem_cons, List.not_mem_nil, or_false] at hevent
    rcases hevent with rfl | rfl <;> rfl

theorem Statement.wellFormed_operationsOf (program : Program) :
    ∀ operation ∈ operationsOf program, operation.WellFormed :=
  fun operation hmem => Operation.wellFormed_of_token? (token?_operationsOf program operation hmem)

theorem withinRoom_of_assemble {program : Program} {maxDepth : Nat} {nodes : List Node}
    (h : assemble program maxDepth = .ok nodes) : Node.WithinRoom maxDepth nodes := by
  have hrun := @Assembly.WellFormed.run maxDepth (Statement.operationsOf program) _
    (.fresh maxDepth) (Statement.wellFormed_operationsOf program)
  rw [assemble_eq_tree, Outcome.tree] at h
  split at h
  · exact hrun.finish h
  · cases h

/-- **Every tree is well formed**, whatever its program, and nests at most as deep as it
may. -/
theorem assemble_wellFormed {program : Program} {maxDepth : Nat} {nodes : List Node}
    (h : assemble program maxDepth = .ok nodes) :
    Node.WellFormedRow nodes ∧ Node.nestingOf true nodes ≤ maxDepth :=
  ⟨(withinRoom_of_assemble h).wellFormedRow, (withinRoom_of_assemble h).nestingOf_le⟩

/-- A value that goes on after the expression that begins it, and a block between texts, with
a text in it that comes in two pieces. -/
theorem assemble_wellFormed_of_block :
    ∃ nodes, assemble
        [.content "a<", .content "p ID=", .mustache ⟨⟨"x", [], []⟩, true⟩, .content "b>c",
          .block ⟨"if", [], []⟩ [.content "d", .content "e"] (some [.content "<br/>"]),
          .content "f</P>"] 2 = .ok nodes ∧
      Node.WellFormedRow nodes ∧ Node.nestingOf true nodes ≤ 2 := by
  have h : assemble
      [.content "a<", .content "p ID=", .mustache ⟨⟨"x", [], []⟩, true⟩, .content "b>c",
        .block ⟨"if", [], []⟩ [.content "d", .content "e"] (some [.content "<br/>"]),
        .content "f</P>"] 2 =
      .ok [.text "a",
        .element { name := "p", attributes := [⟨"id", [.mustache ⟨⟨"x", [], []⟩, true⟩, .text "b"]⟩] }
          [.text "c", .block ⟨"if", [], []⟩ [.text "de"] (some [.element ⟨⟨"br", []⟩, true, []⟩ []]),
            .text "f"]] := by
    cbv
  exact ⟨_, h, assemble_wellFormed h⟩

end TemplateTree
