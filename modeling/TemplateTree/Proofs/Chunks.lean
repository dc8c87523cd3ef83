/-
Where a text is cut does not matter.

A lexer takes markup in pieces, and what it makes of them depends only on their
concatenation.  The reason is that a step looks at the unread characters from the
front and never at how many there are: a step that is possible with some of them
is the same step with more.  The one place that needs a second character before it
can decide, a dash after `<!`, waits instead of guessing, so it is no exception.

An assembly inherits this, up to one difference that nothing can see.  Of a piece
whose tokens do not all fit, only the error remains; the lexer that is left behind
has read more of the text when the piece was longer.  `Outcome.Alike` is equality up
to that difference, and it is enough for the tree and for the error of a program.
-/
import Mathlib
import TemplateTree.Template

namespace TemplateTree

namespace Lexer

/-- A lexer with more to read. -/
def extend (l : Lexer) (more : List Char) : Lexer :=
  { l with unread := l.unread ++ more }

@[simp] theorem extend_nil (l : Lexer) : l.extend [] = l := by
  simp [extend]

theorem extend_extend (l : Lexer) (first second : List Char) :
    (l.extend first).extend second = l.extend (first ++ second) := by
  simp [extend]

/-- The answer does not change once it is one. -/
theorem commentOpening_extend {l : Lexer} (hne : l.unread ≠ []) (more : List Char)
    (h : l.commentOpening ≠ .undecided) :
    (l.extend more).commentOpening = l.commentOpening := by
  unfold commentOpening at h ⊢
  by_cases hs : l.state = .markupDeclaration
  · simp only [extend, hs, if_true] at h ⊢
    match hu : l.unread with
    | [] => exact absurd hu hne
    | [c] =>
      by_cases hc : c = '-'
      · simp [hu, hc] at h
      · cases more <;> simp [hc]
    | c :: d :: rest =>
      by_cases hc : c = '-' <;> by_cases hd : d = '-' <;> simp [hc, hd]
  · simp [extend, hs]

/-- A step that is possible stays the same with more to read. -/
theorem step?_extend {l next : Lexer} {completed : Option Token}
    (h : l.step? = some (completed, next)) (more : List Char) :
    (l.extend more).step? = some (completed, next.extend more) := by
  have hne : l.unread ≠ [] := by
    intro hu
    simp [step?, commentOpening, hu] at h
  have hopen : l.commentOpening ≠ .undecided := by
    intro hu
    simp [step?, hu] at h
  unfold step? at h ⊢
  rw [commentOpening_extend hne more hopen]
  match ho : l.commentOpening with
  | .undecided => exact absurd ho hopen
  | .yes =>
    have htwo : 2 ≤ l.unread.length := by
      unfold commentOpening at ho
      split at ho
      · split at ho <;> simp_all
      · simp at ho
    simp only [ho] at h ⊢
    cases h
    simp [extend, List.drop_append_of_le_length htwo]
  | .no =>
    simp only [ho] at h ⊢
    match hu : l.unread with
    | [] => exact absurd hu hne
    | c :: rest =>
      simp only [hu] at h
      cases h
      simp only [extend, hu, List.cons_append]
      split <;> rfl

/-- **Reading goes on where it stopped.**  To read with more at hand is to read without
it, and then the rest. -/
theorem run_extend (l : Lexer) (more : List Char) (done : Array Token) :
    (l.extend more).run done = ((l.run done).2.extend more).run (l.run done).1 := by
  match h : l.step? with
  | none => rw [run_of_stop h]
  | some (none, next) =>
    rw [run_of_step h, run_of_step (step?_extend h more)]
    exact run_extend next more done
  | some (some token, next) =>
    rw [run_of_complete h, run_of_complete (step?_extend h more)]
    exact run_extend next more (done.push token)
termination_by l.work
decreasing_by all_goals exact work_step h

/-- Takes a piece of text that is given as a row of characters. -/
def read (l : Lexer) (text : List Char) : List Token × Lexer :=
  (((l.extend text).run #[]).1.toList, ((l.extend text).run #[]).2)

theorem feed_eq_read (l : Lexer) (text : String) : l.feed text = l.read text.toList := rfl

/-- Two pieces of text are read like the one that they make up. -/
theorem read_append (l : Lexer) (first second : List Char) :
    l.read (first ++ second) =
      ((l.read first).1 ++ ((l.read first).2.read second).1, ((l.read first).2.read second).2) := by
  simp only [read]
  rw [← extend_extend, run_extend, run_eq]
  simp

end Lexer

namespace Outcome

/-- Outcomes that nothing later can tell apart: they failed in the same way, or they
left the same. -/
def Alike (o p : Outcome) : Prop :=
  o.error = p.error ∧ (o.error = none → o.assembly = p.assembly)

theorem Alike.refl (o : Outcome) : o.Alike o :=
  ⟨rfl, fun _ => rfl⟩

theorem Alike.trans {o p q : Outcome} (h₁ : o.Alike p) (h₂ : p.Alike q) : o.Alike q :=
  ⟨h₁.1.trans h₂.1, fun h => (h₁.2 h).trans (h₂.2 (by rw [← h₁.1]; exact h))⟩

/-- What goes on alike from outcomes that are alike ends alike. -/
theorem Alike.andThen {o p : Outcome} {next next' : Assembly → Outcome} (h : o.Alike p)
    (hnext : ∀ a, (next a).Alike (next' a)) : (o.andThen next).Alike (p.andThen next') := by
  obtain ⟨herr, hsame⟩ := h
  unfold Outcome.andThen
  rw [← herr]
  match ho : o.error with
  | none =>
    rw [← hsame ho]
    exact hnext o.assembly
  | some e => exact ⟨herr, fun hnone => absurd hnone (by simp [ho])⟩

theorem andThen_assoc (o : Outcome) (first second : Assembly → Outcome) :
    (o.andThen first).andThen second = o.andThen fun a => (first a).andThen second := by
  unfold Outcome.andThen
  match ho : o.error with
  | none => rfl
  | some e => simp [ho]

theorem andThen_done (o : Outcome) : o.andThen (⟨·, none⟩) = o := by
  unfold Outcome.andThen
  match o with
  | ⟨a, none⟩ => rfl
  | ⟨a, some e⟩ => rfl

/-- Where something that goes on succeeds, what came before succeeded too. -/
theorem done_of_andThen {o : Outcome} {next : Assembly → Outcome} {b : Assembly}
    (h : o.andThen next = ⟨b, none⟩) : ∃ a, o = ⟨a, none⟩ ∧ next a = ⟨b, none⟩ := by
  match o with
  | ⟨a, none⟩ => exact ⟨a, rfl, h⟩
  | ⟨a, some e⟩ => cases h

/-- The outcome with another lexer in it. -/
def withLexer (o : Outcome) (lexer : Lexer) : Outcome :=
  { o with assembly := { o.assembly with lexer } }

/-- The tree that an outcome ends in. -/
def tree (o : Outcome) : Except TemplateError (List Node) :=
  match o.error with
  | none => o.assembly.finish
  | some e => .error e

/-- A tree comes of operations that all succeed. -/
theorem done_of_tree {o : Outcome} {nodes : List Node} (h : o.tree = .ok nodes) :
    ∃ a, o = ⟨a, none⟩ ∧ a.finish = .ok nodes := by
  match o with
  | ⟨a, none⟩ => exact ⟨a, rfl, h⟩
  | ⟨a, some e⟩ => cases h

theorem Alike.tree_eq {o p : Outcome} (h : o.Alike p) : o.tree = p.tree := by
  obtain ⟨herr, hsame⟩ := h
  unfold tree
  rw [← herr]
  match ho : o.error with
  | none => simp only [hsame ho]
  | some e => rfl

end Outcome

theorem assemble_eq_tree (program : Program) (maxDepth : Nat) :
    assemble program maxDepth =
      ((Assembly.fresh maxDepth).run (Statement.operationsOf program)).tree := rfl

namespace Assembly

theorem run_singleton (a : Assembly) (operation : Operation) :
    a.run [operation] = a.apply operation :=
  Outcome.andThen_done _

/-- A token goes to the stack, and the lexer is not asked. -/
theorem mergeToken_withLexer (a : Assembly) (lexer : Lexer) (token : Token) :
    mergeToken { a with lexer } token = (a.mergeToken token).withLexer lexer := by
  unfold mergeToken Outcome.ofStack
  match a.stack.mergeToken token with
  | .ok stack => rfl
  | .error e stack => rfl

theorem mergeTokens_withLexer (a : Assembly) (lexer : Lexer) (tokens : List Token) :
    mergeTokens { a with lexer } tokens = (a.mergeTokens tokens).withLexer lexer := by
  induction tokens generalizing a with
  | nil => rfl
  | cons token rest ih =>
    simp only [mergeTokens, mergeToken_withLexer]
    match h : (a.mergeToken token).error with
    | none =>
      simp only [Outcome.andThen, Outcome.withLexer, h]
      exact ih _
    | some e => simp [Outcome.andThen, Outcome.withLexer, h]

theorem mergeTokens_append (a : Assembly) (first second : List Token) :
    a.mergeTokens (first ++ second) = (a.mergeTokens first).andThen (mergeTokens · second) := by
  induction first generalizing a with
  | nil => rfl
  | cons token rest ih =>
    simp only [List.cons_append, mergeTokens, Outcome.andThen_assoc]
    congr 1
    funext b
    exact ih b

/-- A feed is the merging of what the lexer reads. -/
theorem feed_eq_mergeTokens (a : Assembly) (text : String) :
    a.feed text =
      (a.mergeTokens (a.lexer.read text.toList).1).withLexer (a.lexer.read text.toList).2 :=
  mergeTokens_withLexer a (a.lexer.read text.toList).2 (a.lexer.read text.toList).1

/-- Two pieces of markup have the effect of the one that they make up. -/
theorem feed_append_alike (a : Assembly) (first second : String) :
    (a.feed (first ++ second)).Alike ((a.feed first).andThen (·.feed second)) := by
  rw [feed_eq_mergeTokens a (first ++ second), String.toList_append, Lexer.read_append,
    mergeTokens_append, feed_eq_mergeTokens a first]
  match h : (a.mergeTokens (a.lexer.read first.toList).1).error with
  | none =>
    have hfirst : ((a.mergeTokens (a.lexer.read first.toList).1).withLexer
        (a.lexer.read first.toList).2).error = none := h
    simp only [Outcome.andThen, h, hfirst]
    rw [feed_eq_mergeTokens]
    simp only [Outcome.withLexer, mergeTokens_withLexer]
    exact Outcome.Alike.refl _
  | some e =>
    refine ⟨by simp [Outcome.andThen, Outcome.withLexer, h], ?_⟩
    intro hnone
    simp [Outcome.andThen, Outcome.withLexer, h] at hnone

/-- One feed among other operations may be made in two. -/
theorem run_feed_append_alike (a : Assembly) (first second : String) (rest : List Operation) :
    (a.run (.feed (first ++ second) :: rest)).Alike
      (a.run (.feed first :: .feed second :: rest)) := by
  simp only [run, apply]
  rw [← Outcome.andThen_assoc]
  exact (feed_append_alike a first second).andThen fun b => Outcome.Alike.refl _

end Assembly

/-! ### Programs -/

/-- The second program is the first with one of its texts, at whatever level, cut in
two. -/
inductive Statement.CutOnce : Program → Program → Prop
  | here (first second : String) (rest : Program) :
      CutOnce (.content (first ++ second) :: rest) (.content first :: .content second :: rest)
  | later {program program' : Program} (statement : Statement) (h : CutOnce program program') :
      CutOnce (statement :: program) (statement :: program')
  | body {body body' : Program} (expression : Expression) (inverse : Option Program)
      (rest : Program) (h : CutOnce body body') :
      CutOnce (.block expression body inverse :: rest) (.block expression body' inverse :: rest)
  | inverse {inverse inverse' : Program} (expression : Expression) (body rest : Program)
      (h : CutOnce inverse inverse') :
      CutOnce (.block expression body (some inverse) :: rest)
        (.block expression body (some inverse') :: rest)

namespace Statement

/-- To the assembly, a text cut in two is one feed made in two, wherever it stood. -/
theorem CutOnce.operationsOf_eq {program program' : Program} (h : CutOnce program program') :
    ∃ (before after : List Operation) (first second : String),
      operationsOf program = before ++ .feed (first ++ second) :: after ∧
        operationsOf program' = before ++ .feed first :: .feed second :: after := by
  induction h with
  | here first second rest => exact ⟨[], operationsOf rest, first, second, rfl, rfl⟩
  | later statement h ih =>
    obtain ⟨before, after, first, second, h₁, h₂⟩ := ih
    refine ⟨operations statement ++ before, after, first, second, ?_, ?_⟩
    · rw [operationsOf, h₁, List.append_assoc]
    · rw [operationsOf, h₂, List.append_assoc]
  | body expression inverse rest h ih =>
    obtain ⟨before, after, first, second, h₁, h₂⟩ := ih
    refine ⟨.enterBlock expression :: before,
      after ++ .closeProgram :: (inverseOperations inverse ++ .leaveBlock :: operationsOf rest),
      first, second, ?_, ?_⟩
    · simp [operationsOf, operations, h₁]
    · simp [operationsOf, operations, h₂]
  | inverse expression body rest h ih =>
    obtain ⟨before, after, first, second, h₁, h₂⟩ := ih
    refine ⟨.enterBlock expression ::
        (operationsOf body ++ .closeProgram :: .startInverse :: before),
      after ++ .closeProgram :: .leaveBlock :: operationsOf rest, first, second, ?_, ?_⟩
    · simp [operationsOf, operations, inverseOperations, h₁]
    · simp [operationsOf, operations, inverseOperations, h₂]

theorem CutOnce.assemble_eq {program program' : Program} (h : CutOnce program program')
    (maxDepth : Nat) : assemble program maxDepth = assemble program' maxDepth := by
  obtain ⟨before, after, first, second, h₁, h₂⟩ := h.operationsOf_eq
  rw [assemble_eq_tree, assemble_eq_tree, h₁, h₂, Assembly.run_append, Assembly.run_append]
  refine Outcome.Alike.tree_eq ?_
  exact (Outcome.Alike.refl _).andThen fun a => a.run_feed_append_alike first second after

end Statement

/-- **Where a text is cut does not matter.**  A lexer, in whatever state, makes of two
pieces of text what it makes of the one they are cut from: the same tokens in the same
order, and the same state, token under construction and unread characters.  So a program
gives the same tree, or the same error, when one of its texts is cut in two. -/
theorem cut_irrelevant :
    (∀ (l : Lexer) (first second : String),
      l.feed (first ++ second) =
        ((l.feed first).1 ++ ((l.feed first).2.feed second).1, ((l.feed first).2.feed second).2)) ∧
    (∀ (program program' : Program) (maxDepth : Nat), Statement.CutOnce program program' →
      assemble program maxDepth = assemble program' maxDepth) := by
  refine ⟨?_, ?_⟩
  · intro l first second
    simp only [Lexer.feed_eq_read, String.toList_append]
    exact l.read_append first.toList second.toList
  · intro program program' maxDepth h
    exact h.assemble_eq maxDepth

/-- The cut may fall between the two dashes that open a comment, inside the second
program of a block. -/
theorem cut_irrelevant_inside_comment_opening :
    Statement.CutOnce
        [.block ⟨"if", [.path "x"], []⟩ [] (some [.content ("a<!-" ++ "- b --><br/>")])]
        [.block ⟨"if", [.path "x"], []⟩ [] (some [.content "a<!-", .content "- b --><br/>"])] ∧
      assemble [.block ⟨"if", [.path "x"], []⟩ [] (some [.content ("a<!-" ++ "- b --><br/>")])] 1 =
        assemble
          [.block ⟨"if", [.path "x"], []⟩ [] (some [.content "a<!-", .content "- b --><br/>"])]
          1 := by
  have h := Statement.CutOnce.inverse ⟨"if", [.path "x"], []⟩ [] []
    (.here "a<!-" "- b --><br/>" [])
  exact ⟨h, cut_irrelevant.2 _ _ 1 h⟩

end TemplateTree
