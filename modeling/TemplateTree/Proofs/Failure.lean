/-
What a failed operation leaves.

Every operation that takes an expression, a block or the end of a program takes the text in
hand first, and looks only then whether it may proceed.  All the same nothing has happened
when it fails: text is taken only between nodes, and between nodes there is one failure, a
block that would be one level too deep.  That one does leave a trace, and only this: the text
is on the stack instead of in the lexer, where it would have gone next in any case.  The
stack's own steps, on a token, the end of a block or the start of an inverse, look at what is
open before they move anything, so what they leave when they fail is what was there.

None of this asks how the assembly came about.  The lexer may be in any state with any token
in hand, fitting or not.
-/
import TemplateTree.Proofs.Composition

namespace TemplateTree

namespace Assembly

/-- The text in hand, if there is any between nodes, moved to the innermost open node, and
nothing else changed. -/
inductive TextMoved (a : Assembly) : Assembly → Prop
  | text {content : String} (hstate : a.lexer.state = .data)
      (hpending : a.lexer.pending = some (.text content)) :
    TextMoved a ⟨{ a.lexer with pending := none }, a.stack.push (.text content)⟩
  | nothing (hnone : a.lexer.state = .data → ∀ content, a.lexer.pending ≠ some (.text content)) :
    TextMoved a a

variable {a b : Assembly} {e : TemplateError}

theorem textMoved_flushText (a : Assembly) : a.TextMoved a.flushText := by
  obtain ⟨⟨state, pending, unread⟩, stack⟩ := a
  by_cases hstate : state = .data
  · subst hstate
    rcases pending with _ | (content | content | tag | tag)
    · exact .nothing (by simp)
    · exact .text rfl rfl
    · exact .nothing (by simp)
    · exact .nothing (by simp)
    · exact .nothing (by simp)
  · rw [flushText_of_state hstate]
    exact .nothing fun hdata => absurd hdata hstate

/-- Text that moves is neither lost nor doubled. -/
theorem TextMoved.markup (h : a.TextMoved b) (style : MarkupStyle) :
    b.stack.markup style ++ String.join b.lexer.takeText.1.toList =
      a.stack.markup style ++ String.join a.lexer.takeText.1.toList := by
  cases h with
  | @text content hstate hpending =>
    have htaken : a.lexer.takeText.1 = some content := by
      simp only [Lexer.takeText, hstate, hpending]
    have hleft : (Lexer.takeText { a.lexer with pending := none }).1 = none := by
      rw [takeText_of_pending rfl]
    rw [htaken, hleft, OpenStack.markup_push]
    simp [Node.markup]
  | nothing hnone => rfl

/-- A step that leaves the stack when it fails leaves everything then. -/
theorem eq_of_ofStack {step : Step OpenStack} (hkeeps : step.Keeps a.stack)
    (h : Outcome.ofStack a step = ⟨b, some e⟩) : b = a ∧ step = .error e a.stack := by
  cases step with
  | ok stack => cases h
  | error e' left =>
    obtain rfl := hkeeps e' left rfl
    cases h
    exact ⟨rfl, rfl⟩

/-- Between nodes an expression has its place. -/
theorem state_of_placeMustache {m : Mustache} (h : a.placeMustache m = none) :
    a.lexer.state ≠ .data := by
  intro hdata
  simp [placeMustache, hdata] at h

theorem eq_of_mergeMustache {m : Mustache} (h : a.mergeMustache m = ⟨b, some e⟩) : b = a := by
  rw [mergeMustache] at h
  split at h
  · cases h
  · rename_i hplace
    have hstate := state_of_placeMustache hplace
    rw [(lexer_flushText a).1] at hstate
    cases h
    exact flushText_of_state hstate

theorem eq_of_closeProgram (h : a.closeProgram = ⟨b, some e⟩) : b = a := by
  rw [closeProgram] at h
  split at h
  · cases h
  · rename_i hstate
    rw [(lexer_flushText a).1] at hstate
    cases h
    exact flushText_of_state hstate

/-- A block that may not stand here changes nothing; one that is too deep moved the text. -/
theorem cases_of_enterBlock {expression : Expression}
    (h : a.enterBlock expression = ⟨b, some e⟩) :
    (∃ text state, e = .misplacedDirective text state) ∧ b = a ∨
      e = .nestingTooDeep a.stack.maxDepth ∧ a.TextMoved b := by
  rw [enterBlock] at h
  split at h
  · obtain ⟨rfl, hopen⟩ := eq_of_ofStack (a.flushText.stack.keeps_openBlock expression) h
    have hmax : a.flushText.stack.maxDepth = a.stack.maxDepth := by
      unfold flushText
      split
      · exact OpenStack.maxDepth_push _ _
      · rfl
    have herror := (OpenStack.openNode_eq_error_iff.mp hopen).2.1
    rw [hmax] at herror
    exact .inr ⟨herror, textMoved_flushText a⟩
  · rename_i hstate
    rw [(lexer_flushText a).1] at hstate
    cases h
    exact .inl ⟨⟨_, _, rfl⟩, flushText_of_state hstate⟩

/-- **An operation that fails leaves the assembly as it was**, whatever it has in hand and on
its stack.  The one exception is a block that is too deep: the text in hand is on the stack
then, once, and nothing else changed. -/
theorem failed_leaves (a b : Assembly) (e : TemplateError) :
    (∀ token, a.mergeToken token = ⟨b, some e⟩ → b = a) ∧
    (a.startInverse = ⟨b, some e⟩ → b = a) ∧
    (a.leaveBlock = ⟨b, some e⟩ → b = a) ∧
    (∀ m, a.mergeMustache m = ⟨b, some e⟩ → b = a) ∧
    (a.closeProgram = ⟨b, some e⟩ → b = a) ∧
    (∀ expression, a.enterBlock expression = ⟨b, some e⟩ →
      (∃ text state, e = .misplacedDirective text state) ∧ b = a ∨
      e = .nestingTooDeep a.stack.maxDepth ∧ a.TextMoved b ∧
        ∀ style, b.stack.markup style ++ String.join b.lexer.takeText.1.toList =
          a.stack.markup style ++ String.join a.lexer.takeText.1.toList) := by
  refine ⟨?_, ?_, ?_, ?_, ?_, ?_⟩
  · intro token h
    exact (eq_of_ofStack (a.stack.keeps_mergeToken token) h).1
  · intro h
    exact (eq_of_ofStack a.stack.keeps_startInverse h).1
  · intro h
    exact (eq_of_ofStack a.stack.keeps_leaveBlock h).1
  · intro m h
    exact eq_of_mergeMustache h
  · intro h
    exact eq_of_closeProgram h
  · intro expression h
    rcases cases_of_enterBlock h with hmisplaced | ⟨hdeep, hmoved⟩
    · exact .inl hmisplaced
    · exact .inr ⟨hdeep, hmoved, hmoved.markup⟩

/-- A block with no room for it, after a text; and each of the other failures after a bracket,
where a text is in hand that no lexer would have there. -/
theorem failed_leaves_of_block :
    (∃ b, enterBlock ⟨⟨.data, some (.text "a"), []⟩, ⟨1, [], [.element ⟨⟨"p", []⟩, false, []⟩ []]⟩⟩
        ⟨"if", [], []⟩ = ⟨b, some (.nestingTooDeep 1)⟩ ∧
      TextMoved ⟨⟨.data, some (.text "a"), []⟩, ⟨1, [], [.element ⟨⟨"p", []⟩, false, []⟩ []]⟩⟩ b) ∧
    ∃ a : Assembly, a = ⟨⟨.tagOpen, some (.text "a"), []⟩, ⟨1, [], []⟩⟩ ∧
      (∃ b e, a.mergeToken (.endTag ⟨"p", []⟩) = ⟨b, some e⟩ ∧ b = a) ∧
      (∃ b e, a.startInverse = ⟨b, some e⟩ ∧ b = a) ∧
      (∃ b e, a.leaveBlock = ⟨b, some e⟩ ∧ b = a) ∧
      (∃ b e, a.mergeMustache ⟨⟨"x", [], []⟩, true⟩ = ⟨b, some e⟩ ∧ b = a) ∧
      (∃ b e, a.closeProgram = ⟨b, some e⟩ ∧ b = a) ∧
      ∃ b text state, a.enterBlock ⟨"if", [], []⟩ = ⟨b, some (.misplacedDirective text state)⟩ ∧
        b = a := by
  have hdeep : enterBlock
      ⟨⟨.data, some (.text "a"), []⟩, ⟨1, [], [.element ⟨⟨"p", []⟩, false, []⟩ []]⟩⟩
      ⟨"if", [], []⟩ =
        ⟨⟨⟨.data, none, []⟩, ⟨1, [], [.element ⟨⟨"p", []⟩, false, []⟩ [.text "a"]]⟩⟩,
          some (.nestingTooDeep 1)⟩ := rfl
  have hmisplaced : enterBlock ⟨⟨.tagOpen, some (.text "a"), []⟩, ⟨1, [], []⟩⟩ ⟨"if", [], []⟩ =
      ⟨⟨⟨.tagOpen, some (.text "a"), []⟩, ⟨1, [], []⟩⟩,
        some (.misplacedDirective (blockOpening (Expression.text ⟨"if", [], []⟩)) .tagOpen)⟩ := rfl
  refine ⟨⟨_, hdeep, ?_⟩, ⟨_, rfl, ⟨_, _, rfl, ?_⟩, ⟨_, _, rfl, ?_⟩, ⟨_, _, rfl, ?_⟩,
    ⟨_, _, rfl, ?_⟩, ⟨_, _, rfl, ?_⟩, ⟨_, _, _, hmisplaced, ?_⟩⟩⟩
  · rcases (failed_leaves _ _ _).2.2.2.2.2 _ hdeep with ⟨⟨text, state, hother⟩, -⟩ | hmoved
    · cases hother
    · exact hmoved.2.1
  · exact (failed_leaves _ _ _).1 (.endTag ⟨"p", []⟩) rfl
  · exact (failed_leaves _ _ _).2.1 rfl
  · exact (failed_leaves _ _ _).2.2.1 rfl
  · exact (failed_leaves _ _ _).2.2.2.1 ⟨⟨"x", [], []⟩, true⟩ rfl
  · exact (failed_leaves _ _ _).2.2.2.2.1 rfl
  · rcases (failed_leaves _ _ _).2.2.2.2.2 _ hmisplaced with hsame | ⟨hother, -⟩
    · exact hsame.2
    · cases hother

end Assembly

end TemplateTree
