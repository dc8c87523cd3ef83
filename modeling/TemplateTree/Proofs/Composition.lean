/-
Programs are put together from their parts.

There is one lexer and one stack for all of a program, and much is left over where one
statement ends and the next one begins: a run of text that may go on, markup half read,
elements still open.  Still, the tree of a row of statements is made of the trees of its
parts, if the lexer is between nodes where it is cut, and the tree of a block is made of the
trees of its two programs.

Two facts carry this.  An assembly that is between nodes goes on like one whose text was
taken already: `Agree` is equality up to that text, and texts that meet are joined on the
stack as they would have been in the lexer.  And what comes after the cut is put together on
a stack above the one that was there, which makes no difference to it.
-/
import TemplateTree.Proofs.Above

namespace TemplateTree

/-! ### What is left unread -/

namespace Lexer

/-- Nothing is left unread, but perhaps what may become the opening of a comment. -/
def Idle (l : Lexer) : Prop :=
  l.state ≠ .markupDeclaration → l.unread = []

/-- A lexer stops where it can do no step. -/
theorem step?_run (l : Lexer) (done : Array Token) : (l.run done).2.step? = none := by
  match hnext : l.step? with
  | none =>
    rw [run_of_stop hnext]
    exact hnext
  | some (none, next) =>
    rw [run_of_step hnext]
    exact step?_run next done
  | some (some token, next) =>
    rw [run_of_complete hnext]
    exact step?_run next (done.push token)
termination_by l.work
decreasing_by all_goals exact work_step hnext

theorem idle_of_stop {l : Lexer} (h : l.step? = none) : l.Idle := by
  intro hstate
  have hopening : l.commentOpening = .no := by
    unfold commentOpening
    rw [if_neg hstate]
  cases hunread : l.unread with
  | nil => rfl
  | cons c rest => simp [step?, hopening, hunread] at h

theorem idle_read (l : Lexer) (text : List Char) : (l.read text).2.Idle :=
  idle_of_stop (step?_run (l.extend text) #[])

end Lexer

namespace Assembly

variable {a b : Assembly} {m : Mustache}

/-- An assembly that waits for more: the lexer has in hand what fits, and has read what it
can. -/
structure Resting (a : Assembly) : Prop where
  fits : a.lexer.Fits []
  idle : a.lexer.Idle

theorem resting_fresh (maxDepth : Nat) : (fresh maxDepth).Resting :=
  ⟨LexerState.Fits.data, fun _ => rfl⟩

theorem lexer_flushText (a : Assembly) :
    a.flushText.lexer.state = a.lexer.state ∧ a.flushText.lexer.unread = a.lexer.unread := by
  have htake : a.lexer.takeText.2.state = a.lexer.state ∧
      a.lexer.takeText.2.unread = a.lexer.unread := by
    unfold Lexer.takeText
    split <;> exact ⟨rfl, rfl⟩
  unfold flushText
  split
  · rename_i content lexer heq
    rwa [heq] at htake
  · exact ⟨rfl, rfl⟩

/-- An expression is placed where there is nothing left to read. -/
theorem idle_places (h : a.lexer.Idle) (hplaces : a.Places m b) : b.lexer.Idle := by
  cases hplaces with
  | node hstate => exact h
  | modifier hstate hpending => exact h
  | value hstate hpending hlast =>
    refine fun _ => h fun heq => ?_
    rw [heq] at hstate
    cases hstate
  | comment hstate hpending =>
    refine fun _ => h fun heq => ?_
    rw [heq] at hstate
    cases hstate

theorem Resting.apply (h : a.Resting) (operation : Operation) :
    (a.apply operation).assembly.Resting := by
  refine ⟨fits_apply h.fits operation, ?_⟩
  refine @lexer_apply Lexer.Idle (fun l text _ => Lexer.idle_read l text) ?_ idle_places a
    h.idle operation
  intro a hidle
  obtain ⟨hstate, hunread⟩ := lexer_flushText a
  unfold Lexer.Idle
  rw [hstate, hunread]
  exact hidle

theorem Resting.run :
    ∀ (operations : List Operation) {a : Assembly}, a.Resting →
      (a.run operations).assembly.Resting := by
  intro operations
  induction operations with
  | nil => intro a h; exact h
  | cons operation rest ih =>
    intro a h
    have hfirst := h.apply operation
    rw [Assembly.run, Outcome.andThen]
    split
    · exact ih hfirst
    · exact hfirst

/-- Between nodes there is at most a run of text in hand. -/
theorem Resting.settled (h : a.Resting) (hdata : a.lexer.state = .data) :
    Settled a a.flushText.stack := by
  obtain ⟨⟨state, pending, unread⟩, stack⟩ := a
  obtain ⟨hfits, hidle⟩ := h
  simp only at hdata
  subst hdata
  have hunread : unread = [] := hidle (by simp)
  subst hunread
  cases hfits with
  | data => exact .flushed stack
  | @text content hne => exact .text stack content
  | tag htoken htag hstate => exact hstate.elim

theorem flushText_of_state (h : a.lexer.state ≠ .data) : a.flushText = a := by
  have htake : a.lexer.takeText = (none, a.lexer) := by
    unfold Lexer.takeText
    split
    · rename_i content hstate hpending
      exact absurd hstate h
    · rfl
  rw [flushText, htake]

end Assembly

/-! ### Text that is taken early -/

namespace Outcome

/-- Outcomes that are the same once the text in hand is taken, or failed in the same way. -/
def Agree (o p : Outcome) : Prop :=
  o.error = p.error ∧ (o.error = none → o.assembly.flushText = p.assembly.flushText)

theorem Alike.agree {o p q r : Outcome} (ho : o.Alike p) (hq : q.Alike r) (h : p = r) :
    o.Agree q := by
  subst h
  refine ⟨ho.1.trans hq.1.symm, fun hnone => ?_⟩
  have hpnone : q.error = none := by rw [hq.1, ← ho.1, hnone]
  rw [ho.2 hnone, hq.2 hpnone]

theorem Agree.tree_eq {o p : Outcome} (h : o.Agree p) : o.tree = p.tree := by
  obtain ⟨herr, hsame⟩ := h
  unfold tree
  rw [← herr]
  match ho : o.error with
  | none => simp only [Assembly.finish, hsame ho]
  | some e => rfl

end Outcome

namespace Assembly

variable {a b : Assembly} {s : OpenStack}

/-- Text without brackets brings any two assemblies between the same nodes between the same
nodes again. -/
theorem takes_plain (s : OpenStack) {content : String} (hbracket : '<' ∉ content.toList) :
    ∃ s', ∀ {a : Assembly}, Settled a s → ∃ b, a.Takes [.text content] b ∧ Settled b s' := by
  by_cases hempty : content = ""
  · subst hempty
    refine ⟨s, fun {a} hs => ⟨a, ?_, hs⟩⟩
    cases hs with
    | flushed => exact takes_text (Lexer.passes_nil _ _)
    | text => exact takes_text (Lexer.passes_nil _ _)
  · exact ⟨_, fun hs => takes_content hs hempty hbracket⟩

/-- After a bracket nothing tells any more whether the text before it was taken early. -/
theorem feed_bracket_alike (s : OpenStack) {text before after : String}
    (htext : text = (before ++ "<") ++ after) (hbefore : '<' ∉ before.toList) :
    ∃ s', ∀ {a : Assembly}, Settled a s →
      (a.feed text).Alike (feed ⟨⟨.tagOpen, none, []⟩, s'⟩ after) := by
  obtain ⟨s', hplain⟩ := takes_plain s hbefore
  refine ⟨s', fun {a} hs => ?_⟩
  obtain ⟨c, htakes, hc⟩ := hplain hs
  have hopened : a.run [.feed before, .feed "<"] = ⟨⟨⟨.tagOpen, none, []⟩, s'⟩, none⟩ :=
    htakes.append (takes_bracket hc)
  have hrest : a.run [.feed before, .feed "<", .feed after] =
      feed ⟨⟨.tagOpen, none, []⟩, s'⟩ after := by
    have happend := run_append a [.feed before, .feed "<"] [.feed after]
    rw [hopened] at happend
    exact happend.trans (run_singleton _ _)
  have hfirst := a.run_feed_append_alike (before ++ "<") after []
  have hsecond := a.run_feed_append_alike before "<" [.feed after]
  rw [← htext, run_singleton] at hfirst
  rw [hrest] at hsecond
  exact hfirst.trans hsecond

/-- **Markup does not tell whether the text before it was taken.** -/
theorem feed_agree (ha : a.Resting) (hb : b.Resting) (h : a.flushText = b.flushText)
    (text : String) : (a.feed text).Agree (b.feed text) := by
  have hstate : b.lexer.state = a.lexer.state := by
    rw [← (lexer_flushText a).1, ← (lexer_flushText b).1, h]
  by_cases hdata : a.lexer.state = .data
  · have hsa := ha.settled hdata
    have hsb := hb.settled (hstate.trans hdata)
    rw [← h] at hsb
    by_cases hbracket : '<' ∈ text.toList
    · obtain ⟨before, after, hsplit, hbefore⟩ := List.eq_append_cons_of_mem hbracket
      have htext : text = (String.ofList before ++ "<") ++ String.ofList after := by
        apply String.toList_inj.mp
        simp [hsplit]
      obtain ⟨s', halike⟩ := feed_bracket_alike a.flushText.stack htext (by simpa using hbefore)
      exact (halike hsa).agree (halike hsb) rfl
    · obtain ⟨s', hplain⟩ := takes_plain a.flushText.stack hbracket
      obtain ⟨c, hac, hc⟩ := hplain hsa
      obtain ⟨d, hbd, hd⟩ := hplain hsb
      have hfeeda : a.feed text = ⟨c, none⟩ := (run_singleton a (.feed text)).symm.trans hac
      have hfeedb : b.feed text = ⟨d, none⟩ := (run_singleton b (.feed text)).symm.trans hbd
      rw [hfeeda, hfeedb]
      exact ⟨rfl, fun _ => (flushText_of_settled hc).trans (flushText_of_settled hd).symm⟩
  · have hsame : a = b := by
      rw [← flushText_of_state hdata, h, flushText_of_state (by rwa [hstate])]
    rw [hsame]
    exact ⟨rfl, fun _ => rfl⟩

/-- Every other event takes the text first. -/
theorem run_event_agree (ha : a.Resting) (hb : b.Resting) (h : a.flushText = b.flushText)
    (event : Event) : (a.run event.operations).Agree (b.run event.operations) := by
  have hclose : a.closeProgram = b.closeProgram := by rw [closeProgram, closeProgram, h]
  have hrefl : ∀ o : Outcome, o.Agree o := fun o => ⟨rfl, fun _ => rfl⟩
  cases event with
  | text content =>
    simp only [Event.operations, run_singleton]
    exact feed_agree ha hb h content
  | mustache m =>
    have hsame : a.mergeMustache m = b.mergeMustache m := by rw [mergeMustache, mergeMustache, h]
    simp only [Event.operations, run_singleton, apply, hsame]
    exact hrefl _
  | opening expression =>
    have hsame : a.enterBlock expression = b.enterBlock expression := by
      rw [enterBlock, enterBlock, h]
    simp only [Event.operations, run_singleton, apply, hsame]
    exact hrefl _
  | otherwise | closing name =>
    simp only [Event.operations, run, apply, hclose]
    exact hrefl _

/-- **No run tells whether the text before it was taken.** -/
theorem run_agree :
    ∀ (events : List Event) {a b : Assembly}, a.Resting → b.Resting → a.flushText = b.flushText →
      (a.run (events.flatMap Event.operations)).Agree
        (b.run (events.flatMap Event.operations)) := by
  intro events
  induction events with
  | nil => intro a b _ _ h; exact ⟨rfl, fun _ => h⟩
  | cons event rest ih =>
    intro a b ha hb h
    obtain ⟨herr, hsame⟩ := run_event_agree ha hb h event
    have hafter := ha.run event.operations
    have hafter' := hb.run event.operations
    rw [List.flatMap_cons, run_append, run_append, Outcome.andThen, Outcome.andThen, ← herr]
    cases hnone : (a.run event.operations).error with
    | none => exact ih hafter hafter' (hsame hnone)
    | some e => exact ⟨herr, fun hnone' => absurd (hnone.symm.trans hnone') (by simp)⟩

end Assembly

/-! ### Rows that are joined -/

namespace Node

/-- Two rows in one, in which texts that meet are joined. -/
def join : List Node → List Node → List Node
  | [], second => second
  | [.text last], .text content :: rest => .text (last ++ content) :: rest
  | node :: rest, second => node :: join rest second

theorem join_append (first : List Node) (last : Node) (second : List Node) :
    join (first ++ [last]) second = first ++ join [last] second := by
  induction first with
  | nil => rfl
  | cons node rest ih =>
    obtain ⟨next, more, hmore⟩ : ∃ next more, rest ++ [last] = next :: more :=
      List.exists_cons_of_ne_nil (by simp)
    rw [List.cons_append, List.cons_append, ← ih, hmore]
    cases node <;> cases second <;> simp [join]

theorem join_of_apart {last node : Node} (h : last.Apart node) (rest : List Node) :
    join [last] (node :: rest) = last :: node :: rest := by
  cases last with
  | text before =>
    cases node with
    | text content => exact absurd ⟨rfl, rfl⟩ h
    | _ => rfl
  | _ => rfl

/-- A row whose neighbours are apart is joined to one that is kept newest first, node by
node. -/
theorem reverse_foldl_push {nodes : List Node} (h : nodes.IsChain Apart) (row : List Node) :
    (nodes.foldl push row).reverse = join row.reverse nodes := by
  cases row with
  | nil =>
    rw [foldl_push_of_apart nodes [] h (by simp)]
    simp [join]
  | cons last earlier =>
    rw [List.reverse_cons, join_append]
    cases nodes with
    | nil => cases last <;> simp [join]
    | cons node rest =>
      by_cases hboth : last.isText = true ∧ node.isText = true
      · obtain ⟨before, rfl⟩ := exists_text_of_isText hboth.1
        obtain ⟨content, rfl⟩ := exists_text_of_isText hboth.2
        obtain ⟨hnext, hrest⟩ := List.isChain_cons.mp h
        have hpush : push (.text before :: earlier) (.text content) =
            .text (before ++ content) :: earlier := rfl
        rw [List.foldl_cons, hpush, foldl_push_of_apart rest _ hrest]
        · simp [join]
        · intro first hfirst next hmem hapart
          obtain rfl := Option.some.inj hfirst
          exact hnext next hmem ⟨rfl, hapart.2⟩
      · rw [foldl_push_of_apart (node :: rest) (last :: earlier) h, join_of_apart hboth]
        · simp
        · intro first hfirst next hmem
          obtain rfl := Option.some.inj hfirst
          obtain rfl := Option.some.inj hmem
          exact hboth

end Node

/-! ### A program after another -/

theorem Opened.above_of_root {base : OpenStack} (h : base.nodes = []) (opened : Opened) :
    opened.above base = opened := by
  cases opened with
  | fragment => simp [Opened.above, OpenStack.opened, h]
  | _ => rfl

/-- Above finished nodes, errors stay as they are. -/
theorem TemplateError.above_of_root {base : OpenStack} (h : base.nodes = []) (e : TemplateError) :
    e.above base = e := by
  have hdepth : base.depth = 0 := by simp [OpenStack.depth, h]
  cases e <;> simp [TemplateError.above, hdepth, Opened.above_of_root h]

namespace Assembly

/-- A tree above finished nodes is joined to them. -/
theorem finish_above {base : OpenStack} {limit : Nat} (hbase : base.Supports limit)
    (hroot : base.nodes = []) {a : Assembly}
    (hapart : ∀ nodes, a.finish = .ok nodes → nodes.IsChain Node.Apart) :
    (a.above base).finish = a.finish.map (Node.join base.root.reverse) := by
  have hdepth : (a.flushText.above base).stack.depth = a.flushText.stack.depth := by
    have hsum : (a.flushText.above base).stack.depth = a.flushText.stack.depth + base.depth :=
      OpenStack.depth_above hbase
    rw [hsum]
    simp [OpenStack.depth, hroot]
  have hopened : (a.flushText.above base).stack.opened = a.flushText.stack.opened :=
    (OpenStack.opened_above hbase).trans (Opened.above_of_root hroot _)
  have hlexer : (a.flushText.above base).lexer = a.flushText.lexer := rfl
  unfold finish
  rw [flushText_above]
  simp only [hlexer, hdepth, hopened]
  cases hpending : a.flushText.lexer.pending with
  | some token => rfl
  | none =>
    cases hnodes : a.flushText.stack.nodes with
    | nil =>
      have hrow := hapart _ (finish_eq_ok_iff.mpr ⟨hpending, hnodes, rfl⟩)
      have habove : (a.flushText.above base).stack.root =
          a.flushText.stack.root.reverse.foldl Node.push base.root := by
        simp only [above, OpenStack.above, OpenStack.pushRow_root hroot]
      simp only [OpenStack.depth, hnodes, List.length_nil, Nat.lt_irrefl, if_false, habove,
        Node.reverse_foldl_push hrow]
      rfl
    | cons top outer =>
      simp only [OpenStack.depth, hnodes, List.length_cons, Nat.zero_lt_succ, if_true]
      rfl

end Assembly

/-- **An outcome above finished nodes** has its tree joined to them, or its error. -/
theorem Outcome.tree_above {base : OpenStack} {limit : Nat} (hbase : base.Supports limit)
    (hroot : base.nodes = []) {o : Outcome}
    (hapart : ∀ nodes, o.tree = .ok nodes → nodes.IsChain Node.Apart) :
    (o.above base).tree = o.tree.map (Node.join base.root.reverse) := by
  match o with
  | ⟨a, some e⟩ => exact congrArg Except.error (TemplateError.above_of_root hroot e)
  | ⟨a, none⟩ => exact Assembly.finish_above hbase hroot hapart

/-- The lexer is between nodes at the end of a program. -/
def EndsBetween (program : Program) (maxDepth : Nat) : Prop :=
  ((Assembly.fresh maxDepth).run (Statement.operationsOf program)).assembly.lexer.state = .data

/-- A program has a tree, at the end of which the lexer is between nodes. -/
def Reads (program : Program) (maxDepth : Nat) (nodes : List Node) : Prop :=
  assemble program maxDepth = .ok nodes ∧ EndsBetween program maxDepth

namespace Reads

variable {program : Program} {limit : Nat} {nodes : List Node} {a : Assembly}

theorem run_eq (h : Reads program limit nodes) :
    ∃ a, (Assembly.fresh limit).run (Statement.operationsOf program) = ⟨a, none⟩ ∧
      a.WellFormed limit ∧ a.Resting ∧ a.Settled a.flushText.stack := by
  have hrest := (Assembly.resting_fresh limit).run (Statement.operationsOf program)
  have hwell := @Assembly.WellFormed.run limit (Statement.operationsOf program) _ (.fresh limit)
    (Statement.wellFormed_operationsOf program)
  obtain ⟨htree, hends⟩ := h
  unfold EndsBetween at hends
  rw [assemble_eq_tree] at htree
  obtain ⟨a, hrun, -⟩ := Outcome.done_of_tree htree
  rw [hrun] at hrest hwell hends
  exact ⟨a, hrun, hwell, hrest, hrest.settled hends⟩

/-- After a run that ends between nodes, the tree is there if nothing is open. -/
theorem iff_of_settled {s : OpenStack}
    (hrun : (Assembly.fresh limit).run (Statement.operationsOf program) = ⟨a, none⟩)
    (hs : a.Settled s) : Reads program limit nodes ↔ s.nodes = [] ∧ nodes = s.root.reverse := by
  have hends : EndsBetween program limit := by
    unfold EndsBetween
    rw [hrun]
    cases hs <;> rfl
  rw [Reads, assemble_eq_tree, hrun]
  show a.finish = .ok nodes ∧ _ ↔ _
  rw [Assembly.finish_eq_ok_iff, Assembly.flushText_of_settled hs]
  simp [hends]

end Reads

theorem Statement.operationsOf_append (first second : Program) :
    operationsOf (first ++ second) = operationsOf first ++ operationsOf second := by
  rw [operationsOf_eq, operationsOf_eq, operationsOf_eq, eventsOf_append, List.flatMap_append]

/-- **The tree of a program after another** is joined to the other's tree. -/
theorem Reads.assemble_append {first second : Program} {maxDepth : Nat} {nodes : List Node}
    (h : Reads first maxDepth nodes) :
    assemble (first ++ second) maxDepth = (assemble second maxDepth).map (Node.join nodes) := by
  obtain ⟨a, hrun, hwell, hrest, hs⟩ := h.run_eq
  obtain ⟨hnodes, hroot⟩ := (iff_of_settled hrun hs).mp h
  obtain ⟨room, hstack⟩ := hwell.flushText.stack
  have hbase : a.flushText.stack.Supports maxDepth :=
    ⟨by simp [hstack.maxDepth, OpenStack.depth, hnodes], by simp [hnodes]⟩
  have hempty : Assembly.Resting ⟨{}, a.flushText.stack⟩ := ⟨LexerState.Fits.data, fun _ => rfl⟩
  have hflushed : a.flushText = Assembly.flushText ⟨{}, a.flushText.stack⟩ :=
    Assembly.flushText_of_settled hs
  have hagree := Assembly.run_agree (Statement.eventsOf second) hrest hempty hflushed
  rw [← Statement.operationsOf_eq] at hagree
  obtain ⟨habove, -⟩ := Assembly.run_program_above hbase second
  rw [assemble_eq_tree, Statement.operationsOf_append, Assembly.run_append, hrun]
  show (a.run _).tree = _
  rw [hagree.tree_eq, habove, hroot]
  refine Outcome.tree_above hbase hnodes fun row hrow => ?_
  exact (withinRoom_of_assemble hrow).apart

/-! ### A program inside a block -/

namespace Assembly

/-- What ends a part of a block finds a block, and no element. -/
theorem apply_endsPart_of_element {a b : Assembly} {tag : StartTag} {children : List Node}
    {outer : List OpenNode} (hnodes : a.stack.nodes = .element tag children :: outer)
    {operation : Operation} (hends : operation.endsPart = true) :
    a.apply operation ≠ ⟨b, none⟩ := by
  cases operation with
  | startInverse => simp [apply, startInverse, OpenStack.startInverse, hnodes, Outcome.ofStack]
  | leaveBlock => simp [apply, leaveBlock, OpenStack.leaveBlock, hnodes, Outcome.ofStack]
  | _ => cases hends

theorem run_append_eq_iff {a c : Assembly} {first second : List Operation} :
    a.run (first ++ second) = ⟨c, none⟩ ↔
      ∃ b, a.run first = ⟨b, none⟩ ∧ b.run second = ⟨c, none⟩ := by
  rw [run_append]
  match a.run first with
  | ⟨b, some e⟩ => simp [Outcome.andThen]
  | ⟨b, none⟩ => simp [Outcome.andThen]

/-- The end of a part, after the program in it. -/
theorem run_close_iff {base : OpenStack} {limit : Nat} (hbase : base.Supports limit)
    {program : Program} {a c : Assembly}
    (hrun : (fresh limit).run (Statement.operationsOf program) = ⟨a, none⟩) (hresting : a.Resting)
    (hblocks : a.stack.blocks = []) {operation : Operation} (hends : operation.endsPart = true) :
    (a.above base).run [.closeProgram, operation] = ⟨c, none⟩ ↔
      ∃ nodes, Reads program limit nodes ∧
        apply ⟨{}, base.pushRow nodes⟩ operation = ⟨c, none⟩ := by
  by_cases hdata : a.lexer.state = .data
  · have hs := hresting.settled hdata
    have hclose : (a.above base).closeProgram = ⟨⟨{}, a.flushText.stack.above base⟩, none⟩ := by
      rw [closeProgram_above hbase, closeProgram, flushText_of_settled hs]
      rfl
    have hrest : (a.above base).run [.closeProgram, operation] =
        apply ⟨{}, a.flushText.stack.above base⟩ operation := by
      rw [run, apply, hclose]
      exact run_singleton _ _
    simp only [hrest, Reads.iff_of_settled hrun hs]
    cases hnodes : a.flushText.stack.nodes with
    | nil =>
      have hrow : a.flushText.stack.above base = base.pushRow a.flushText.stack.root.reverse := by
        simp [OpenStack.above, hnodes]
      simp [hrow]
    | cons top outer =>
      cases top with
      | element tag children =>
        have htop : (a.flushText.stack.above base).nodes = .element tag children ::
            (outer ++ (base.pushRow a.flushText.stack.root.reverse).nodes) := by
          simp [OpenStack.above, hnodes]
        exact iff_of_false (apply_endsPart_of_element htop hends) (by simp)
      | block expression children inverse =>
        -- all blocks of the program are closed in the end
        have hnone := (blocks_flushText a).trans hblocks
        simp [OpenStack.blocks, hnodes, OpenNode.block?] at hnone
  · have hclose : (a.above base).closeProgram.error ≠ none := by
      rw [closeProgram_above hbase, closeProgram, flushText_of_state hdata]
      simp [hdata, Outcome.above]
    refine iff_of_false ?_ ?_
    · rw [run, apply, Outcome.andThen]
      split
      · exact absurd ‹_› hclose
      · exact fun heq => hclose (congrArg Outcome.error heq)
    · rintro ⟨nodes, ⟨-, hbetween⟩, -⟩
      unfold EndsBetween at hbetween
      rw [hrun] at hbetween
      exact hdata hbetween

/-- **A program inside a block** comes to the end of its part exactly if it has a tree on its
own, with the lexer between nodes at its end.  Its nodes then are in the block. -/
theorem run_part_iff {base : OpenStack} {limit : Nat} (hbase : base.Supports limit)
    (program : Program) {operation : Operation} (hends : operation.endsPart = true)
    {c : Assembly} :
    run ⟨{}, base⟩ (Statement.operationsOf program ++ [.closeProgram, operation]) = ⟨c, none⟩ ↔
      ∃ nodes, Reads program limit nodes ∧
        apply ⟨{}, base.pushRow nodes⟩ operation = ⟨c, none⟩ := by
  obtain ⟨habove, hblocks⟩ := run_program_above hbase program
  have hresting := (resting_fresh limit).run (Statement.operationsOf program)
  rw [run_append, habove]
  cases hrun : (fresh limit).run (Statement.operationsOf program) with
  | mk a error =>
    cases error with
    | some e =>
      refine iff_of_false (by simp [Outcome.above, Outcome.andThen]) ?_
      rintro ⟨nodes, hreads, -⟩
      obtain ⟨a', hrun', -⟩ := hreads.run_eq
      rw [hrun] at hrun'
      cases hrun'
    | none =>
      rw [hrun] at hresting
      exact run_close_iff hbase hrun hresting (hblocks a hrun) hends

end Assembly

theorem assemble_eq_ok_iff {program : Program} {maxDepth : Nat} {nodes : List Node} :
    assemble program maxDepth = .ok nodes ↔
      ∃ c, (Assembly.fresh maxDepth).run (Statement.operationsOf program) = ⟨c, none⟩ ∧
        c.finish = .ok nodes := by
  rw [assemble_eq_tree]
  match (Assembly.fresh maxDepth).run (Statement.operationsOf program) with
  | ⟨a, some e⟩ => simp [Outcome.tree]
  | ⟨a, none⟩ => simp [Outcome.tree]

/-- A stack with nothing but a block on it. -/
def OpenStack.ofBlock (limit : Nat) (expression : Expression) (children : List Node)
    (inverse : Option (List Node)) : OpenStack :=
  ⟨limit + 1, [], [.block expression children inverse]⟩

namespace OpenStack

variable {limit : Nat} {expression : Expression} {nodes children : List Node}

theorem supports_ofBlock (inverse : Option (List Node)) :
    (ofBlock limit expression children inverse).Supports limit :=
  ⟨rfl, by simp [ofBlock, OpenNode.block?]⟩

theorem pushRow_ofBlock (h : nodes.IsChain Node.Apart) :
    (ofBlock limit expression [] none).pushRow nodes =
      ofBlock limit expression nodes.reverse none := by
  have hopen := @pushRow_open ⟨limit + 1, [], []⟩ [] nodes (.block expression [] none)
  rw [OpenNode.pushRow_block, Node.foldl_push_of_apart nodes [] h (by simp), List.append_nil] at hopen
  exact hopen

theorem pushRow_ofBlock_inverse (h : nodes.IsChain Node.Apart) :
    (ofBlock limit expression children (some [])).pushRow nodes =
      ofBlock limit expression children (some nodes.reverse) := by
  have hopen := @pushRow_open ⟨limit + 1, [], []⟩ [] nodes (.block expression children (some []))
  rw [OpenNode.pushRow_inverse, Node.foldl_push_of_apart nodes [] h (by simp), List.append_nil] at hopen
  exact hopen

end OpenStack

namespace Assembly

variable {limit : Nat} {expression : Expression} {program : Program} {c : Assembly}

theorem run_enterBlock (limit : Nat) (expression : Expression) (rest : List Operation) :
    (fresh (limit + 1)).run (.enterBlock expression :: rest) =
      run ⟨{}, .ofBlock limit expression [] none⟩ rest := by
  have happly : (fresh (limit + 1)).apply (.enterBlock expression) =
      ⟨⟨{}, .ofBlock limit expression [] none⟩, none⟩ := rfl
  rw [run, happly]
  rfl

/-- The first program of a block, up to the end of its part. -/
theorem run_body_iff {operation : Operation} (hends : operation.endsPart = true) :
    run ⟨{}, .ofBlock limit expression [] none⟩
        (Statement.operationsOf program ++ [.closeProgram, operation]) = ⟨c, none⟩ ↔
      ∃ nodes, Reads program limit nodes ∧
        apply ⟨{}, .ofBlock limit expression nodes.reverse none⟩ operation = ⟨c, none⟩ := by
  rw [run_part_iff (OpenStack.supports_ofBlock none) program hends]
  refine exists_congr fun nodes => and_congr_right fun hreads => ?_
  rw [OpenStack.pushRow_ofBlock (withinRoom_of_assemble hreads.1).apart]

/-- The second program of a block. -/
theorem run_inverse_iff {children : List Node} :
    run ⟨{}, .ofBlock limit expression children (some [])⟩
        (Statement.operationsOf program ++ [.closeProgram, .leaveBlock]) = ⟨c, none⟩ ↔
      ∃ nodes, Reads program limit nodes ∧
        apply ⟨{}, .ofBlock limit expression children (some nodes.reverse)⟩ .leaveBlock =
          ⟨c, none⟩ := by
  rw [run_part_iff (OpenStack.supports_ofBlock (some [])) program rfl]
  refine exists_congr fun nodes => and_congr_right fun hreads => ?_
  rw [OpenStack.pushRow_ofBlock_inverse (withinRoom_of_assemble hreads.1).apart]

/-- A block alone is the tree once it is closed. -/
theorem leaveBlock_finish_iff {children nodes : List Node} {inverse : Option (List Node)} :
    (∃ c, apply ⟨{}, .ofBlock limit expression children inverse⟩ .leaveBlock = ⟨c, none⟩ ∧
      c.finish = .ok nodes) ↔
      nodes = [.block expression children.reverse (inverse.map List.reverse)] := by
  constructor
  · rintro ⟨c, hleave, hfinish⟩
    cases hleave
    exact (Except.ok.inj hfinish).symm
  · rintro rfl
    exact ⟨_, rfl, rfl⟩

end Assembly

section

variable {expression : Expression} {body inverse : Program} {limit : Nat}

/-- A block with one program is closed exactly if the program comes to its end. -/
theorem Assembly.run_block_iff {c : Assembly} :
    (fresh (limit + 1)).run (Statement.operationsOf [.block expression body none]) = ⟨c, none⟩ ↔
      ∃ children, Reads body limit children ∧
        apply ⟨{}, .ofBlock limit expression children.reverse none⟩ .leaveBlock = ⟨c, none⟩ := by
  have hoperations : Statement.operationsOf [.block expression body none] =
      .enterBlock expression :: (Statement.operationsOf body ++ [.closeProgram, .leaveBlock]) := by
    simp [Statement.operationsOf, Statement.operations, Statement.inverseOperations]
  rw [hoperations, run_enterBlock]
  exact run_body_iff rfl

/-- A block with two programs is closed exactly if both of them come to their ends. -/
theorem Assembly.run_block_inverse_iff {c : Assembly} :
    (fresh (limit + 1)).run (Statement.operationsOf [.block expression body (some inverse)]) =
        ⟨c, none⟩ ↔
      ∃ children, Reads body limit children ∧ ∃ other, Reads inverse limit other ∧
        apply ⟨{}, .ofBlock limit expression children.reverse (some other.reverse)⟩ .leaveBlock =
          ⟨c, none⟩ := by
  have hoperations : Statement.operationsOf [.block expression body (some inverse)] =
      .enterBlock expression ::
        ((Statement.operationsOf body ++ [.closeProgram, .startInverse]) ++
          (Statement.operationsOf inverse ++ [.closeProgram, .leaveBlock])) := by
    simp [Statement.operationsOf, Statement.operations, Statement.inverseOperations]
  rw [hoperations, run_enterBlock, run_append_eq_iff]
  constructor
  · rintro ⟨b, hfirst, hsecond⟩
    obtain ⟨children, hreads, hstart⟩ := (run_body_iff rfl).mp hfirst
    cases hstart
    exact ⟨children, hreads, run_inverse_iff.mp hsecond⟩
  · rintro ⟨children, hreads, hrest⟩
    exact ⟨_, (run_body_iff rfl).mpr ⟨children, hreads, rfl⟩, run_inverse_iff.mpr hrest⟩

/-- **The tree of a block with one program** is the block with that program's tree in it. -/
theorem assemble_block_iff {nodes : List Node} :
    assemble [.block expression body none] (limit + 1) = .ok nodes ↔
      ∃ children, Reads body limit children ∧ nodes = [.block expression children none] := by
  have hleave := fun children : List Node =>
    @Assembly.leaveBlock_finish_iff limit expression children.reverse nodes none
  simp only [List.reverse_reverse, Option.map_none] at hleave
  simp only [assemble_eq_ok_iff, Assembly.run_block_iff, ← hleave]
  constructor
  · rintro ⟨c, ⟨children, hreads, hclosed⟩, hfinish⟩
    exact ⟨children, hreads, c, hclosed, hfinish⟩
  · rintro ⟨children, hreads, c, hclosed, hfinish⟩
    exact ⟨c, ⟨children, hreads, hclosed⟩, hfinish⟩

/-- **The tree of a block with two programs** is the block with their trees in it. -/
theorem assemble_block_inverse_iff {nodes : List Node} :
    assemble [.block expression body (some inverse)] (limit + 1) = .ok nodes ↔
      ∃ children, Reads body limit children ∧ ∃ other, Reads inverse limit other ∧
        nodes = [.block expression children (some other)] := by
  have hleave := fun children other : List Node =>
    @Assembly.leaveBlock_finish_iff limit expression children.reverse nodes (some other.reverse)
  simp only [List.reverse_reverse, Option.map_some] at hleave
  simp only [assemble_eq_ok_iff, Assembly.run_block_inverse_iff, ← hleave]
  constructor
  · rintro ⟨c, ⟨children, hreads, other, hother, hclosed⟩, hfinish⟩
    exact ⟨children, hreads, other, hother, c, hclosed, hfinish⟩
  · rintro ⟨children, hreads, other, hother, c, hclosed, hfinish⟩
    exact ⟨c, ⟨children, hreads, other, hother, hclosed⟩, hfinish⟩

end

/-- **A program is put together from its parts.**  Where the lexer is between nodes, a
program may be cut in two: its tree is the tree of the first part joined to that of the
second, and its error is the error of the second.  And a block has a tree exactly if its
programs have trees of their own, with one level less, and the lexer is between nodes at the
end of each. -/
theorem assemble_compositional :
    (∀ (first second : Program) (maxDepth : Nat) (nodes : List Node),
      assemble first maxDepth = .ok nodes → EndsBetween first maxDepth →
        assemble (first ++ second) maxDepth =
          (assemble second maxDepth).map (Node.join nodes)) ∧
    (∀ (expression : Expression) (body inverse : Program) (limit : Nat)
        (children other : List Node),
      assemble [.block expression body (some inverse)] (limit + 1) =
          .ok [.block expression children (some other)] ↔
        (assemble body limit = .ok children ∧ EndsBetween body limit) ∧
          assemble inverse limit = .ok other ∧ EndsBetween inverse limit) ∧
    (∀ (expression : Expression) (body : Program) (limit : Nat) (children : List Node),
      assemble [.block expression body none] (limit + 1) = .ok [.block expression children none] ↔
        assemble body limit = .ok children ∧ EndsBetween body limit) := by
  refine ⟨fun first second maxDepth nodes h hends => Reads.assemble_append ⟨h, hends⟩, ?_, ?_⟩
  · intro expression body inverse limit children other
    rw [assemble_block_inverse_iff]
    constructor
    · rintro ⟨children', hreads, other', hother, heq⟩
      cases heq
      exact ⟨hreads, hother⟩
    · rintro ⟨hreads, hother⟩
      exact ⟨children, hreads, other, hother, rfl⟩
  · intro expression body limit children
    rw [assemble_block_iff]
    constructor
    · rintro ⟨children', hreads, heq⟩
      cases heq
      exact hreads
    · exact fun hreads => ⟨children, hreads, rfl⟩

/-- A text that goes on after the cut, and an element after the cut for which there is no
room. -/
theorem assemble_compositional_of_text :
    ∃ first : Program, ∃ nodes : List Node,
      first = [.content "<p>a</p>", .content "b"] ∧
      (assemble first 1 = .ok nodes ∧ EndsBetween first 1) ∧
      assemble (first ++ [.content "c", .block ⟨"if", [], []⟩ [] none]) 1 =
        .ok [.element { name := "p" } [.text "a"], .text "bc", .block ⟨"if", [], []⟩ [] none] ∧
      assemble (first ++ [.content "c", .block ⟨"if", [], []⟩ [.content "<i>"] none]) 1 =
        .error (.nestingTooDeep 1) := by
  have h : assemble [.content "<p>a</p>", .content "b"] 1 =
      .ok [.element { name := "p" } [.text "a"], .text "b"] := by
    cbv
  have hends : EndsBetween [.content "<p>a</p>", .content "b"] 1 := by
    unfold EndsBetween
    cbv
  have hsecond : assemble [.content "c", .block ⟨"if", [], []⟩ [] none] 1 =
      .ok [.text "c", .block ⟨"if", [], []⟩ [] none] := by
    cbv
  have hfails : assemble [.content "c", .block ⟨"if", [], []⟩ [.content "<i>"] none] 1 =
      .error (.nestingTooDeep 1) := by
    cbv
  refine ⟨_, _, rfl, ⟨h, hends⟩, ?_, ?_⟩
  · rw [assemble_compositional.1 _ _ 1 _ h hends, hsecond]
    rfl
  · rw [assemble_compositional.1 _ _ 1 _ h hends, hfails]
    rfl

end TemplateTree
