/-
What a stack takes in the course of a walk.

A walk over a program makes the lexer read texts and takes the text in hand before each
expression and each block.  The stack sees none of that.  It takes tokens, expressions between
nodes and the steps of blocks, one after another, and `history` is the row of these.  It is a row
of operations again, so what is known of rows of operations is known of histories.

That it is the right row can be told in two ways.  From an empty stack, taking it leads to the
stack that the walk leads to; and the log, which has a record for each token that is merged and
for each block that is entered, has the same ones in the same order.
-/
import TemplateTree.Log
import TemplateTree.Proofs.Inventory
import TemplateTree.Proofs.Regular

namespace TemplateTree

/-! ### Taking -/

namespace OpenStack

/-- Takes something.  What only the lexer has to do with changes nothing. -/
def take (s : OpenStack) : Operation → Step OpenStack
  | .token t => s.mergeToken t
  | .mustache m => .ok (s.push (.mustache m))
  | .enterBlock expression => s.openBlock expression
  | .startInverse => s.startInverse
  | .leaveBlock => s.leaveBlock
  | .feed _ | .flushText | .closeProgram => .ok s

/-- Takes one thing after another, up to the first that fails. -/
def takeAll (s : OpenStack) : List Operation → Step OpenStack
  | [] => .ok s
  | operation :: later =>
    match s.take operation with
    | .error e left => .error e left
    | .ok next => next.takeAll later

variable {s next last : OpenStack} {operation : Operation} {later : List Operation}

theorem takeAll_cons_eq_ok_iff :
    s.takeAll (operation :: later) = .ok last ↔
      ∃ next, s.take operation = .ok next ∧ next.takeAll later = .ok last := by
  rw [takeAll]
  cases hnext : s.take operation with
  | ok next => exact ⟨fun h => ⟨next, rfl, h⟩, fun ⟨_, heq, h⟩ => Step.ok.inj heq ▸ h⟩
  | error e left =>
    constructor
    · rintro ⟨⟩
    · rintro ⟨_, ⟨⟩, _⟩

theorem takeAll_append {first second : List Operation} (h : s.takeAll first = .ok next) :
    s.takeAll (first ++ second) = next.takeAll second := by
  induction first generalizing s with
  | nil =>
    cases h
    rfl
  | cons operation later ih =>
    obtain ⟨after, htake, hlater⟩ := takeAll_cons_eq_ok_iff.mp h
    rw [List.cons_append, takeAll, htake]
    exact ih hlater

/-- The open blocks change with the steps of blocks only. -/
theorem blocks_take (h : s.take operation = .ok next) :
    next.blocks = operation.after s.blocks := by
  cases operation with
  | token t => exact blocks_mergeToken h
  | enterBlock expression => exact blocks_openNode h
  | startInverse => exact blocks_startInverse h
  | leaveBlock => exact blocks_leaveBlock h
  | mustache m =>
    cases h
    exact blocks_push s _
  | feed | flushText | closeProgram =>
    cases h
    rfl

end OpenStack

/-! ### The history of a walk -/

namespace Assembly

/-- The text in hand as something to be taken, if there is any between nodes. -/
def textInHand (a : Assembly) : List Operation :=
  a.lexer.takeText.1.toList.map fun content => .token (.text content)

/-- What the stack takes in the course of an operation. -/
def brings (a : Assembly) : Operation → List Operation
  | .feed text => (a.lexer.feed text).1.map .token
  | .token t => [.token t]
  | .mustache m => a.textInHand ++ if a.lexer.state = .data then [.mustache m] else []
  | .enterBlock expression =>
    a.textInHand ++ if a.lexer.state = .data then [.enterBlock expression] else []
  | .flushText | .closeProgram => a.textInHand
  | .startInverse => [.startInverse]
  | .leaveBlock => [.leaveBlock]

/-- What the stack takes in the course of operations, and at the end of them. -/
def history (a : Assembly) : List Operation → List Operation
  | [] => a.textInHand
  | operation :: rest => a.brings operation ++ (a.apply operation).assembly.history rest

variable {a b : Assembly} {operation : Operation}

theorem takeAll_textInHand (a : Assembly) :
    a.stack.takeAll a.textInHand = .ok a.flushText.stack := by
  unfold textInHand flushText
  rcases a.lexer.takeText with ⟨_ | content, lexer⟩ <;> rfl

theorem takeAll_tokens (tokens : List Token) :
    ∀ {a b : Assembly}, a.mergeTokens tokens = ⟨b, none⟩ →
      a.stack.takeAll (tokens.map .token) = .ok b.stack := by
  induction tokens with
  | nil =>
    intro a b h
    cases h
    rfl
  | cons token rest ih =>
    intro a b h
    obtain ⟨next, hmerge, hlater⟩ := Outcome.done_of_andThen h
    obtain ⟨stack, hstack, rfl⟩ := stack_of_ofStack hmerge
    exact OpenStack.takeAll_cons_eq_ok_iff.mpr ⟨stack, hstack, ih hlater⟩

/-- **An operation that succeeds does to the stack what it brings.** -/
theorem takeAll_brings (h : a.apply operation = ⟨b, none⟩) :
    a.stack.takeAll (a.brings operation) = .ok b.stack := by
  have hflush := a.takeAll_textInHand
  have hstate := (lexer_flushText a).1
  cases operation with
  | feed text => exact @takeAll_tokens _ { a with lexer := (a.lexer.feed text).2 } b h
  | token t =>
    obtain ⟨stack, hmerge, rfl⟩ := stack_of_ofStack h
    exact OpenStack.takeAll_cons_eq_ok_iff.mpr ⟨stack, hmerge, rfl⟩
  | mustache m =>
    have hstack := congrArg (fun o : Outcome => o.assembly.stack) h
    simp only [apply, stack_mergeMustache] at hstack
    rw [brings, OpenStack.takeAll_append hflush, ← hstack]
    split <;> rfl
  | enterBlock expression =>
    rw [apply, enterBlock] at h
    split at h
    · rename_i hdata
      rw [hstate] at hdata
      obtain ⟨stack, hopen, rfl⟩ := stack_of_ofStack h
      rw [brings, OpenStack.takeAll_append hflush, if_pos hdata]
      exact OpenStack.takeAll_cons_eq_ok_iff.mpr ⟨stack, hopen, rfl⟩
    · cases h
  | flushText =>
    cases h
    exact hflush
  | closeProgram =>
    rw [apply, closeProgram] at h
    split at h
    · cases h
      exact hflush
    · cases h
  | startInverse =>
    obtain ⟨stack, hstart, rfl⟩ := stack_of_ofStack h
    exact OpenStack.takeAll_cons_eq_ok_iff.mpr ⟨stack, hstart, rfl⟩
  | leaveBlock =>
    obtain ⟨stack, hleave, rfl⟩ := stack_of_ofStack h
    exact OpenStack.takeAll_cons_eq_ok_iff.mpr ⟨stack, hleave, rfl⟩

/-- **A walk that succeeds does to the stack what its history says**, and the text that is in hand
at the end is a part of it. -/
theorem takeAll_history :
    ∀ (operations : List Operation) {a b : Assembly}, a.run operations = ⟨b, none⟩ →
      a.stack.takeAll (a.history operations) = .ok b.flushText.stack := by
  intro operations
  induction operations with
  | nil =>
    intro a b h
    cases h
    exact takeAll_textInHand a
  | cons operation rest ih =>
    intro a b h
    obtain ⟨next, happly, hlater⟩ := Outcome.done_of_andThen h
    have hfirst := takeAll_brings happly
    rw [history, happly, OpenStack.takeAll_append hfirst]
    exact ih hlater

end Assembly

/-! ### Second rows -/

namespace Operation

/-- Tokens have no part in whether a block goes on to its other part once. -/
theorem inverseOnce_tokens_append {blocks : List (String × Bool)} {tokens : List Operation}
    (htokens : ∀ operation ∈ tokens, ∃ t, operation = .token t) {rest : List Operation}
    (h : InverseOnce blocks rest) : InverseOnce blocks (tokens ++ rest) := by
  induction tokens with
  | nil => exact h
  | cons operation more ih =>
    obtain ⟨⟨t, rfl⟩, hmore⟩ := List.forall_mem_cons.mp htokens
    exact ⟨trivial, ih hmore⟩

end Operation

namespace Assembly

theorem token_of_mem_textInHand {a : Assembly} {operation : Operation}
    (h : operation ∈ a.textInHand) : ∃ t, operation = .token t := by
  obtain ⟨content, -, rfl⟩ := List.mem_map.mp h
  exact ⟨_, rfl⟩

/-- What an operation brings goes on to the other part of a block if the operation does. -/
theorem inverseOnce_brings_append (a : Assembly) {operation : Operation}
    {blocks : List (String × Bool)} (hat : operation.InverseOnceAt blocks) {rest : List Operation}
    (h : Operation.InverseOnce (operation.after blocks) rest)
    (hdata : ∀ expression, operation = .enterBlock expression → a.lexer.state = .data) :
    Operation.InverseOnce blocks (a.brings operation ++ rest) := by
  have htext : ∀ operation ∈ a.textInHand, ∃ t, operation = .token t := fun _ =>
    token_of_mem_textInHand
  cases operation with
  | feed text =>
    refine Operation.inverseOnce_tokens_append ?_ h
    intro operation hmem
    obtain ⟨t, -, rfl⟩ := List.mem_map.mp hmem
    exact ⟨t, rfl⟩
  | token t => exact ⟨trivial, h⟩
  | mustache m =>
    rw [brings, List.append_assoc]
    refine Operation.inverseOnce_tokens_append htext ?_
    split
    · exact ⟨trivial, h⟩
    · exact h
  | enterBlock expression =>
    rw [brings, List.append_assoc, if_pos (hdata expression rfl)]
    exact Operation.inverseOnce_tokens_append htext ⟨trivial, h⟩
  | flushText | closeProgram => exact Operation.inverseOnce_tokens_append htext h
  | startInverse => exact ⟨hat, h⟩
  | leaveBlock => exact ⟨trivial, h⟩

/-- A block that is begun begins between nodes. -/
theorem state_of_enterBlock {a b : Assembly} {expression : Expression}
    (h : a.enterBlock expression = ⟨b, none⟩) : a.lexer.state = .data := by
  rw [enterBlock] at h
  split at h
  · rename_i hdata
    rwa [(lexer_flushText a).1] at hdata
  · cases h

theorem inverseOnce_history :
    ∀ (operations : List Operation) {a b : Assembly} {blocks : List (String × Bool)},
      a.run operations = ⟨b, none⟩ → Operation.InverseOnce blocks operations →
        Operation.InverseOnce blocks (a.history operations) := by
  intro operations
  induction operations with
  | nil =>
    intro a b blocks _ _
    have htext := @Operation.inverseOnce_tokens_append blocks a.textInHand
      (fun _ => token_of_mem_textInHand) [] trivial
    rwa [List.append_nil] at htext
  | cons operation rest ih =>
    intro a b blocks h honce
    obtain ⟨next, happly, hlater⟩ := Outcome.done_of_andThen h
    have hrest := ih hlater honce.2
    rw [history, happly]
    refine inverseOnce_brings_append a honce.1 hrest ?_
    rintro expression rfl
    exact state_of_enterBlock happly

end Assembly

/-! ### The log -/

/-- What a record tells of a token that is merged or of a block that is entered, by its name. -/
def Record.taken? : Record → Option (Token ⊕ String)
  | .merging token _ => some (.inl token)
  | .entering name _ => some (.inr name)
  | .parsed _ | .lexed _ | .placing _ _ | .built _ => none

/-- The token or the name of the block that is taken. -/
def Operation.taken? : Operation → Option (Token ⊕ String)
  | .token t => some (.inl t)
  | .enterBlock expression => some (.inr expression.path)
  | _ => none

namespace Assembly

variable {a b : Assembly} {operation : Operation}

theorem taken_flushRecords (a : Assembly) :
    a.flushRecords.filterMap Record.taken? = a.textInHand.filterMap Operation.taken? := by
  unfold flushRecords textInHand
  rcases a.lexer.takeText with ⟨_ | content, lexer⟩ <;> rfl

theorem taken_tokenRecords (tokens : List Token) :
    ∀ {a b : Assembly}, a.mergeTokens tokens = ⟨b, none⟩ →
      (a.tokenRecords tokens).filterMap Record.taken? =
        (tokens.map Operation.token).filterMap Operation.taken? := by
  induction tokens with
  | nil =>
    intro a b _
    rfl
  | cons token rest ih =>
    intro a b h
    obtain ⟨next, hmerge, hlater⟩ := Outcome.done_of_andThen h
    simp only [tokenRecords, hmerge, Option.isNone_none, if_true, List.map_cons]
    exact congrArg (Sum.inl token :: ·) (ih hlater)

/-- An operation is reported as what it brings. -/
theorem taken_operationRecords (h : a.apply operation = ⟨b, none⟩) :
    (a.operationRecords operation).filterMap Record.taken? =
      (a.brings operation).filterMap Operation.taken? := by
  have hflush := a.taken_flushRecords
  cases operation with
  | feed text => exact taken_tokenRecords _ h
  | token t => rfl
  | mustache m =>
    rw [operationRecords, brings, List.filterMap_append, List.filterMap_append, hflush]
    split <;> rfl
  | enterBlock expression =>
    have hdone : (a.enterBlock expression).error = none := congrArg Outcome.error h
    simp only [operationRecords, brings, if_pos (state_of_enterBlock h), List.filterMap_append,
      hflush, hdone, Option.isNone_none, if_true]
    rfl
  | flushText | closeProgram => exact hflush
  | startInverse | leaveBlock => rfl

theorem taken_runRecords :
    ∀ (operations : List Operation) {a b : Assembly}, a.run operations = ⟨b, none⟩ →
      (a.runRecords operations ++ b.flushRecords).filterMap Record.taken? =
        (a.history operations).filterMap Operation.taken? := by
  intro operations
  induction operations with
  | nil =>
    intro a b h
    cases h
    exact taken_flushRecords a
  | cons operation rest ih =>
    intro a b h
    obtain ⟨next, happly, hlater⟩ := Outcome.done_of_andThen h
    have hfirst := taken_operationRecords happly
    have hrest := ih hlater
    rw [runRecords, history, happly]
    simp only [Option.isNone_none, if_true, List.append_assoc, List.filterMap_append] at hrest ⊢
    rw [hfirst, hrest]

end Assembly

/-! ### Programs -/

/-- What the stack takes in the course of the walk over a program. -/
def history (program : Program) (maxDepth : Nat) : List Operation :=
  (Assembly.fresh maxDepth).history (Statement.operationsOf program)

variable {program : Program} {maxDepth : Nat} {nodes : List Node}

/-- **A tree is what an empty stack makes of the history of the walk.** -/
theorem takeAll_history_of_assemble (h : assemble program maxDepth = .ok nodes) :
    ∃ last : OpenStack, OpenStack.takeAll { maxDepth } (history program maxDepth) = .ok last ∧
      last.nodes = [] ∧ nodes = last.root.reverse := by
  rw [assemble_eq_tree] at h
  obtain ⟨b, hrun, hfinish⟩ := Outcome.done_of_tree h
  obtain ⟨-, hclosed, hnodes⟩ := Assembly.finish_eq_ok_iff.mp hfinish
  exact ⟨_, Assembly.takeAll_history _ hrun, hclosed, hnodes⟩

/-- In the history of a walk no block goes on to its other part twice. -/
theorem inverseOnce_history_of_assemble (h : assemble program maxDepth = .ok nodes) :
    Operation.InverseOnce [] (history program maxDepth) := by
  rw [assemble_eq_tree] at h
  obtain ⟨b, hrun, -⟩ := Outcome.done_of_tree h
  exact Assembly.inverseOnce_history _ hrun (Statement.inverseOnce_operationsOf program [])

/-- **The log tells of the tokens and blocks of the history**, and of no others. -/
theorem taken_assembleRecords (h : assemble program maxDepth = .ok nodes) :
    (assembleRecords program maxDepth).filterMap Record.taken? =
      (history program maxDepth).filterMap Operation.taken? := by
  rw [assemble_eq_tree] at h
  obtain ⟨b, hrun, hfinish⟩ := Outcome.done_of_tree h
  have hrecords := Assembly.taken_runRecords _ hrun
  rw [assembleRecords, hrun, history, ← hrecords]
  simp [Assembly.finishRecords, hfinish, Record.taken?]

end TemplateTree
