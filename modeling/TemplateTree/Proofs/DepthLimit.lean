/-
What a limit on the depth of trees does.

The limit is asked for in one place, where a node is opened.  So a run under a lower limit
does just what the run under the higher one does, until that one opens a node that is one too
many here; then it fails, and says so.  `Outcome.Limited` puts two runs side by side like
this, and every operation keeps them so.

That the higher run went too high at some time is still to be seen in its tree, because the
peak of its stack never goes down and is the depth of the tree in the end.  Hence a program
has under a lower limit the tree that it has under a higher one, if that is not too deep, and
else none, for that reason and no other.
-/
import TemplateTree.Proofs.Height

namespace TemplateTree

/-! ### The same under another limit -/

/-- A stack with another limit. -/
def OpenStack.withLimit (limit : Nat) (s : OpenStack) : OpenStack :=
  { s with maxDepth := limit }

/-- An outcome with another limit. -/
def Outcome.withLimit (limit : Nat) (o : Outcome) : Outcome :=
  { o with assembly := o.assembly.mapStack (OpenStack.withLimit limit) }

namespace OpenStack

variable {lower limit : Nat} {s : OpenStack}

theorem withLimit_push (limit : Nat) (s : OpenStack) (node : Node) :
    (s.push node).withLimit limit = (s.withLimit limit).push node := by
  obtain ⟨maxDepth, root, nodes⟩ := s
  match nodes with
  | [] => rfl
  | top :: outer => rfl

/-- What a step makes of a stack, and what it makes of it under a lower limit: the same, or the
second fails because the first goes too high, unless that one fails as well. -/
inductive Limited (lower : Nat) : Step OpenStack → Step OpenStack → Prop
  | same (step : Step OpenStack) : Limited lower step (step.map (withLimit lower))
  | tooDeep {step : Step OpenStack} (left : OpenStack) (h : ∀ s, step = .ok s → lower < s.peak) :
    Limited lower step (.error (.nestingTooDeep lower) left)

/-- **A node opens under both limits, or not under the lower one.** -/
theorem limited_openNode (h : lower ≤ s.maxDepth) {node : OpenNode} (hnode : node.height = 0) :
    Limited lower (s.openNode node) ((s.withLimit lower).openNode node) := by
  by_cases hroom : s.depth < lower
  · have hsame : (s.withLimit lower).openNode node = (s.openNode node).map (withLimit lower) := by
      have hlower : ¬ (s.withLimit lower).maxDepth ≤ (s.withLimit lower).depth := by
        show ¬ lower ≤ s.depth
        omega
      rw [openNode, openNode, if_neg hlower, if_neg (by omega)]
      rfl
    rw [hsame]
    exact .same _
  · have hfull : (s.withLimit lower).maxDepth ≤ (s.withLimit lower).depth := by
      show lower ≤ s.depth
      omega
    have herror : (s.withLimit lower).openNode node =
        .error (.nestingTooDeep lower) (s.withLimit lower) := by
      rw [openNode, if_pos hfull]
      rfl
    rw [herror]
    refine .tooDeep _ fun s' hopen => ?_
    rw [peak_openNode hnode hopen]
    have hdepth : s'.depth = s.depth + 1 := by
      unfold openNode at hopen
      split at hopen
      · cases hopen
      · cases hopen
        rfl
    omega

theorem limited_push (s : OpenStack) (node : Node) :
    Limited lower (.ok (s.push node)) (.ok ((s.withLimit lower).push node)) := by
  rw [← withLimit_push]
  exact .same (.ok (s.push node))

theorem limited_closeElement (s : OpenStack) (name : String) :
    Limited lower (s.closeElement name) ((s.withLimit lower).closeElement name) := by
  obtain ⟨maxDepth, root, nodes⟩ := s
  match nodes with
  | [] => exact .same _
  | .block expression children inverse :: outer => exact .same _
  | .element start children :: outer =>
    simp only [closeElement, withLimit]
    by_cases hname : sameIgnoringCase start.name name = true
    · rw [if_pos hname, if_pos hname]
      exact limited_push ⟨maxDepth, root, outer⟩ _
    · rw [if_neg hname, if_neg hname]
      exact .same _

theorem limited_mergeToken (h : lower ≤ s.maxDepth) (token : Token) :
    Limited lower (s.mergeToken token) ((s.withLimit lower).mergeToken token) := by
  match token with
  | .text content | .comment content => exact limited_push s _
  | .startTag tag =>
    simp only [mergeToken, openElement]
    by_cases hself : tag.selfClosing = true
    · rw [if_pos hself, if_pos hself]
      exact limited_push s _
    · rw [if_neg hself, if_neg hself]
      exact limited_openNode h rfl
  | .endTag tag => exact limited_closeElement s tag.name

theorem limited_startInverse (s : OpenStack) :
    Limited lower s.startInverse (s.withLimit lower).startInverse := by
  obtain ⟨maxDepth, root, nodes⟩ := s
  match nodes with
  | [] => exact .same _
  | .block expression children inverse :: outer => exact .same _
  | .element tag children :: outer => exact .same _

theorem limited_leaveBlock (s : OpenStack) :
    Limited lower s.leaveBlock (s.withLimit lower).leaveBlock := by
  obtain ⟨maxDepth, root, nodes⟩ := s
  match nodes with
  | [] => exact .same _
  | .block expression children inverse :: outer => exact limited_push ⟨maxDepth, root, outer⟩ _
  | .element tag children :: outer => exact .same _

end OpenStack

/-! ### Outcomes -/

namespace Outcome

/-- What is done to an assembly, and what the same does under a lower limit. -/
inductive Limited (lower : Nat) : Outcome → Outcome → Prop
  | same (o : Outcome) : Limited lower o (o.withLimit lower)
  | tooDeep {o : Outcome} (left : Assembly)
      (h : o.error = none → lower < o.assembly.stack.peak) :
    Limited lower o ⟨left, some (.nestingTooDeep lower)⟩

variable {lower : Nat}

theorem limited_ofStack (a : Assembly) {step step' : Step OpenStack}
    (h : OpenStack.Limited lower step step') :
    Limited lower (ofStack a step) (ofStack (a.mapStack (OpenStack.withLimit lower)) step') := by
  cases h with
  | same =>
    have hsame : ofStack (a.mapStack (OpenStack.withLimit lower))
        (step.map (OpenStack.withLimit lower)) = (ofStack a step).withLimit lower := by
      cases step <;> rfl
    rw [hsame]
    exact .same _
  | tooDeep left h =>
    refine .tooDeep _ fun hdone => ?_
    cases step with
    | ok s => exact h s rfl
    | error e left => cases hdone

/-- What goes on side by side stays so, if it does not make the peak go down. -/
theorem Limited.andThen {o o' : Outcome} (h : Limited lower o o') {next : Assembly → Outcome}
    (hnext : ∀ a, o = ⟨a, none⟩ →
      Limited lower (next a) (next (a.mapStack (OpenStack.withLimit lower))) ∧
        a.stack.peak ≤ (next a).assembly.stack.peak) :
    Limited lower (o.andThen next) (o'.andThen next) := by
  obtain ⟨a, error⟩ := o
  cases h with
  | same =>
    match error with
    | none => exact (hnext a rfl).1
    | some e => exact .same ⟨a, some e⟩
  | tooDeep left h =>
    refine .tooDeep left fun hdone => ?_
    match error with
    | none => exact (h rfl).trans_le (hnext a rfl).2
    | some e => cases hdone

theorem Limited.withLexer {o o' : Outcome} (h : Limited lower o o') (lexer : Lexer) :
    Limited lower (o.withLexer lexer) (o'.withLexer lexer) := by
  cases h with
  | same => exact .same (o.withLexer lexer)
  | tooDeep left h => exact .tooDeep _ h

end Outcome

/-! ### Runs -/

namespace Assembly

open Outcome (Limited limited_ofStack)

variable {lower higher : Nat} {a : Assembly}

theorem limited_mergeTokens (hlimit : lower ≤ higher) (tokens : List Token) :
    ∀ {a : Assembly}, a.stack.Regular higher →
      Limited lower (a.mergeTokens tokens)
          ((a.mapStack (OpenStack.withLimit lower)).mergeTokens tokens) ∧
        a.stack.peak ≤ (a.mergeTokens tokens).assembly.stack.peak := by
  induction tokens with
  | nil => intro a _; exact ⟨.same ⟨a, none⟩, Nat.le_refl _⟩
  | cons token rest ih =>
    intro a h
    have hfirst : Limited lower (a.mergeToken token)
        ((a.mapStack (OpenStack.withLimit lower)).mergeToken token) :=
      limited_ofStack a (OpenStack.limited_mergeToken (h.maxDepth ▸ hlimit) token)
    obtain ⟨hregular, hpeak⟩ := @peak_apply_le higher a h (.token token) trivial
    refine ⟨hfirst.andThen fun b hb => ?_, ?_⟩
    · rw [apply, hb] at hregular
      exact ih hregular
    · rw [mergeTokens, Outcome.andThen]
      split
      · exact hpeak.trans (ih hregular).2
      · exact hpeak

theorem limited_apply (hlimit : lower ≤ higher) (h : a.stack.Regular higher) (operation : Operation) :
    Limited lower (a.apply operation) ((a.mapStack (OpenStack.withLimit lower)).apply operation) := by
  have hflush : (a.mapStack (OpenStack.withLimit lower)).flushText =
      a.flushText.mapStack (OpenStack.withLimit lower) :=
    flushText_mapStack (OpenStack.withLimit_push lower) a
  match operation with
  | .feed text =>
    rw [apply, apply, feed_eq_mergeTokens, feed_eq_mergeTokens]
    exact (limited_mergeTokens hlimit _ h).1.withLexer _
  | .token t => exact limited_ofStack a (OpenStack.limited_mergeToken (h.maxDepth ▸ hlimit) t)
  | .mustache m =>
    rw [apply, apply, mergeMustache, mergeMustache, hflush,
      placeMustache_mapStack (OpenStack.withLimit_push lower)]
    rcases a.flushText.placeMustache m with _ | placed
    · exact .same ⟨a.flushText, _⟩
    · exact .same ⟨placed, none⟩
  | .enterBlock expression =>
    have hregular : a.flushText.stack.Regular higher := (@peak_apply_le higher a h .flushText trivial).1
    rw [apply, apply, enterBlock, enterBlock, hflush]
    show Limited lower _ (if a.flushText.lexer.state = .data then _ else _)
    by_cases hdata : a.flushText.lexer.state = .data
    · rw [if_pos hdata, if_pos hdata]
      exact limited_ofStack a.flushText (OpenStack.limited_openNode (hregular.maxDepth ▸ hlimit) rfl)
    · rw [if_neg hdata, if_neg hdata]
      exact .same ⟨a.flushText, _⟩
  | .flushText =>
    rw [apply, apply, hflush]
    exact .same ⟨a.flushText, none⟩
  | .closeProgram =>
    rw [apply, apply, closeProgram, closeProgram, hflush]
    show Limited lower _ (if a.flushText.lexer.state = .data then _ else _)
    by_cases hdata : a.flushText.lexer.state = .data
    · rw [if_pos hdata, if_pos hdata]
      exact .same ⟨a.flushText, none⟩
    · rw [if_neg hdata, if_neg hdata]
      exact .same ⟨a.flushText, _⟩
  | .startInverse => exact limited_ofStack a (OpenStack.limited_startInverse a.stack)
  | .leaveBlock => exact limited_ofStack a (OpenStack.limited_leaveBlock a.stack)

/-- **Two runs under two limits stay side by side**, and the peak of the higher one does not go
down. -/
theorem limited_run (hlimit : lower ≤ higher) (operations : List Operation) :
    ∀ {a : Assembly}, a.stack.Regular higher → Operation.InverseOnce a.stack.blocks operations →
      Limited lower (a.run operations) ((a.mapStack (OpenStack.withLimit lower)).run operations) ∧
        a.stack.peak ≤ (a.run operations).assembly.stack.peak := by
  induction operations with
  | nil => intro a _ _; exact ⟨.same ⟨a, none⟩, Nat.le_refl _⟩
  | cons operation rest ih =>
    intro a h honce
    obtain ⟨hregular, hpeak⟩ := peak_apply_le h honce.1
    have hrest : ∀ b, a.apply operation = ⟨b, none⟩ →
        b.stack.Regular higher ∧ Operation.InverseOnce b.stack.blocks rest := by
      intro b hb
      rw [blocks_apply hb]
      rw [hb] at hregular
      exact ⟨hregular, honce.2⟩
    refine ⟨(limited_apply hlimit h operation).andThen fun b hb => ?_, ?_⟩
    · exact ih (hrest b hb).1 (hrest b hb).2
    · rw [run, Outcome.andThen]
      split
      · rename_i hdone
        have hb : a.apply operation = ⟨(a.apply operation).assembly, none⟩ := by
          rw [← hdone]
        exact hpeak.trans (ih (hrest _ hb).1 (hrest _ hb).2).2
      · exact hpeak

/-- At the end no limit counts. -/
theorem finish_withLimit (limit : Nat) (a : Assembly) :
    (a.mapStack (OpenStack.withLimit limit)).finish = a.finish := by
  rw [finish, finish, flushText_mapStack (OpenStack.withLimit_push limit)]
  rfl

theorem peak_flushText (a : Assembly) : a.flushText.stack.peak = a.stack.peak := by
  unfold flushText
  split
  · exact OpenStack.peak_push _ rfl
  · rfl

/-- A tree is as deep as the stack was high. -/
theorem nestingOf_of_finish {nodes : List Node} (h : a.finish = .ok nodes) :
    Node.nestingOf true nodes = a.stack.peak := by
  obtain ⟨-, hclosed, rfl⟩ := finish_eq_ok_iff.mp h
  rw [Node.nestingOf_reverse, ← OpenStack.peak_of_closed hclosed, peak_flushText]

end Assembly

/-- Side by side two runs end in the same way, or the second one fails because the tree of the
first is too deep, if it has one. -/
theorem Outcome.Limited.tree {lower : Nat} {o o' : Outcome} (h : Limited lower o o') :
    o'.tree = o.tree ∨ o'.tree = .error (.nestingTooDeep lower) ∧
      ∀ nodes, o.tree = .ok nodes → lower < Node.nestingOf true nodes := by
  cases h with
  | same =>
    refine .inl ?_
    obtain ⟨a, error⟩ := o
    match error with
    | none => exact Assembly.finish_withLimit lower a
    | some e => rfl
  | tooDeep left h =>
    refine .inr ⟨rfl, fun nodes htree => ?_⟩
    obtain ⟨a, rfl, hfinish⟩ := Outcome.done_of_tree htree
    rw [Assembly.nestingOf_of_finish hfinish]
    exact h rfl

/-- **The limit on the depth of trees is exact, and it changes nothing else.**  Under a lower
limit a program has the tree that it has under a higher one if that nests no deeper than the
lower limit, and else it fails, because it is too deep.  What fails under the higher limit fails
under the lower one in the same way, or because it is too deep. -/
theorem assemble_limit {lower higher : Nat} (h : lower ≤ higher) (program : Program) :
    (∀ nodes, assemble program higher = .ok nodes →
      assemble program lower =
        if Node.nestingOf true nodes ≤ lower then .ok nodes else .error (.nestingTooDeep lower)) ∧
    ∀ e, assemble program higher = .error e →
      assemble program lower = .error e ∨
        assemble program lower = .error (.nestingTooDeep lower) := by
  have hregular : (Assembly.fresh higher).stack.Regular higher := .empty higher
  have hlimited := (Assembly.limited_run h (Statement.operationsOf program) hregular
    (Statement.inverseOnce_operationsOf program [])).1
  refine ⟨fun nodes htree => ?_, fun e herror => ?_⟩
  · rcases hlimited.tree with hsame | ⟨hdeep, hnesting⟩
    · have hlower : assemble program lower = .ok nodes := hsame.trans htree
      rw [if_pos (withinRoom_of_assemble hlower).nestingOf_le]
      exact hlower
    · rw [if_neg (Nat.not_le.mpr (hnesting nodes htree))]
      exact hdeep
  · rcases hlimited.tree with hsame | ⟨hdeep, -⟩
    · exact .inl (hsame.trans herror)
    · exact .inr hdeep

/-- A block counts, in its second part too, and an element that ends itself does not: two levels
are enough here, and one is not. -/
theorem assemble_limit_of_block :
    assemble [.block ⟨"if", [], []⟩ [.content "a"] (some [.content "<p><br/></p>"])] 5 =
        .ok [.block ⟨"if", [], []⟩ [.text "a"]
          (some [.element ⟨⟨"p", []⟩, false, []⟩ [.element ⟨⟨"br", []⟩, true, []⟩ []]])] ∧
      assemble [.block ⟨"if", [], []⟩ [.content "a"] (some [.content "<p><br/></p>"])] 2 =
        .ok [.block ⟨"if", [], []⟩ [.text "a"]
          (some [.element ⟨⟨"p", []⟩, false, []⟩ [.element ⟨⟨"br", []⟩, true, []⟩ []]])] ∧
      assemble [.block ⟨"if", [], []⟩ [.content "a"] (some [.content "<p><br/></p>"])] 1 =
        .error (.nestingTooDeep 1) := by
  have hfive : assemble [.block ⟨"if", [], []⟩ [.content "a"] (some [.content "<p><br/></p>"])] 5 =
      .ok [.block ⟨"if", [], []⟩ [.text "a"]
        (some [.element ⟨⟨"p", []⟩, false, []⟩ [.element ⟨⟨"br", []⟩, true, []⟩ []]])] := by
    cbv
  have hnesting : Node.nestingOf true [.block ⟨"if", [], []⟩ [.text "a"]
      (some [.element ⟨⟨"p", []⟩, false, []⟩ [.element ⟨⟨"br", []⟩, true, []⟩ []]])] = 2 := by
    decide
  have htwo := (assemble_limit (show 2 ≤ 5 by omega) _).1 _ hfive
  have hone := (assemble_limit (show 1 ≤ 5 by omega) _).1 _ hfive
  rw [hnesting] at htwo hone
  exact ⟨hfive, htwo, hone⟩

end TemplateTree
