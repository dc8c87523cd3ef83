/-
Readings, step by step.

Two things are said here about the steps of a lexer, for proofs that follow it through a text.
What a step does is settled by the state and the unread characters: `step?_uniform` says so for
all tokens that may be in hand at once.  So two lexers in the same place move in the same way,
whatever each of them has in hand.

And a reading is a row of steps up to the first that is not possible.  `Reading` is that row, and
an induction on it replaces the one on what is left to do.
-/
import TemplateTree.Proofs.Pending

namespace TemplateTree

/-! ### What a state says of the token in hand -/

namespace LexerState

variable {state : LexerState} {kept : List Attribute} {pending : Option Token}

theorem Fits.of_data (h : LexerState.data.Fits kept pending) :
    ∀ token ∈ pending, ∃ content, token = .text content ∧ content ≠ "" := by
  cases h with
  | data => simp
  | text hne => simpa using hne
  | tag htoken htag hfinishes => exact hfinishes.elim

theorem Fits.of_opening (h : state.Fits kept pending)
    (hstate : state = .tagOpen ∨ state = .endTagOpen ∨ state = .markupDeclaration) :
    pending = none := by
  rcases hstate with rfl | rfl | rfl <;>
  · cases h with
    | tag htoken htag hfinishes => exact hfinishes.elim
    | _ => rfl

theorem Fits.of_text (h : state.Fits kept pending) (hstate : state = .data ∨ state = .tagOpen) :
    pending = none ∨ ∃ content, pending = some (.text content) := by
  cases h with
  | data | tagOpen => exact .inl rfl
  | @text content hne => exact .inr ⟨content, rfl⟩
  | tag htoken htag hfinishes => rcases hstate with rfl | rfl <;> exact hfinishes.elim
  | _ => simp at hstate

theorem Fits.of_isInComment (h : state.Fits kept pending) (hstate : state.isInComment = true) :
    ∃ content, pending = some (.comment content) ∧
      (state = .commentStart ∨ state = .commentStartDash → content = "") := by
  cases h with
  | commentStart | commentStartDash => exact ⟨"", rfl, fun _ => rfl⟩
  | comment content | commentEndDash content | commentEnd content =>
    exact ⟨content, rfl, by simp⟩
  | tag htoken htag hfinishes =>
    have hnot := not_isInTag_of_isInComment hstate
    simp [hfinishes.isInTag] at hnot
  | _ => cases hstate

theorem Fits.of_isInTag (h : state.Fits kept pending) (hstate : state.isInTag = true) :
    ∃ token tag, pending = some token ∧ token.Begins tag ∧ state.Finishes kept tag.attributes := by
  cases h with
  | tag htoken htag hfinishes => exact ⟨_, _, rfl, htoken, hfinishes⟩
  | _ => cases hstate

end LexerState

namespace Lexer

/-! ### Steps -/

/-- The changes that a step can make to the token in hand, in a state. -/
inductive Edits (state : LexerState) : (Option Token → Option Token) → Prop
  | turn {c : Char} {edit : Option Token → Option Token} (h : Turn.Edits c state edit) :
    Edits state edit
  | opensComment (h : state = .markupDeclaration) : Edits state fun _ => some (.comment "")

/-- What a step does whatever is in hand: it changes that, and keeps it or hands it out. -/
inductive Move (state : LexerState) : (Option Token → Option Token × Lexer) → Prop
  | keeps (next : LexerState) (rest : List Char) {edit : Option Token → Option Token}
      (h : Edits state edit) : Move state fun pending => (none, ⟨next, edit pending, rest⟩)
  | handsOut (next : LexerState) (rest : List Char) {edit : Option Token → Option Token}
      (h : Edits state edit) : Move state fun pending => (edit pending, ⟨next, none, rest⟩)

/-- A turn on the first unread character is such a step. -/
theorem move_of_plan {c : Char} {state : LexerState} {turn : Option Token → Turn}
    (h : Turn.Plan c state turn) (rest : List Char) :
    Move state fun pending => ((turn pending).completed,
      ⟨(turn pending).state, (turn pending).pending,
        if (turn pending).again then c :: rest else rest⟩) := by
  cases h with
  | goTo next hedit => exact .keeps next rest (.turn hedit)
  | handTo next hedit => exact .keeps next (c :: rest) (.turn hedit)
  | complete next hedit => exact .handsOut next rest (.turn hedit)

/-- **What a step does is settled without the token in hand.** -/
theorem step?_uniform (state : LexerState) (unread : List Char) :
    (∀ pending, step? ⟨state, pending, unread⟩ = none) ∨
      ∃ move, Move state move ∧ ∀ pending, step? ⟨state, pending, unread⟩ = some (move pending) := by
  have hsame : ∀ pending, commentOpening ⟨state, pending, unread⟩ =
      commentOpening ⟨state, none, unread⟩ := fun _ => rfl
  cases hopening : commentOpening ⟨state, none, unread⟩ with
  | undecided =>
    refine .inl fun pending => ?_
    simp [step?, hsame pending, hopening]
  | yes =>
    have hstate : state = .markupDeclaration := by
      unfold commentOpening at hopening
      split at hopening
      · assumption
      · cases hopening
    refine .inr ⟨_, .keeps .commentStart (unread.drop 2) (.opensComment hstate), fun pending => ?_⟩
    simp [step?, hsame pending, hopening]
  | no =>
    cases unread with
    | nil =>
      refine .inl fun pending => ?_
      simp [step?, hsame pending, hopening]
    | cons c rest =>
      refine .inr ⟨_, move_of_plan (Turn.plan_take c state) rest, fun pending => ?_⟩
      simp [step?, hsame pending, hopening]

/-- What is in hand fits after every step. -/
theorem Fits.next {l next : Lexer} {completed : Option Token} (h : l.Fits [])
    (hstep : l.step? = some (completed, next)) : next.Fits [] := by
  obtain ⟨hnone, hsome⟩ := fits_step? h hstep
  cases completed with
  | none => exact hnone rfl
  | some token => exact (hsome token rfl).1

/-! ### Readings -/

/-- The steps of a lexer up to the first that is not possible, with the tokens completed. -/
inductive Reading : Lexer → List Token → Lexer → Prop
  | stop {l : Lexer} (h : l.step? = none) : Reading l [] l
  | step {l next last : Lexer} {completed : Option Token} {tokens : List Token}
      (h : l.step? = some (completed, next)) (hrest : Reading next tokens last) :
    Reading l (completed.toList ++ tokens) last

theorem reading_run (l : Lexer) : l.Reading (l.run #[]).1.toList (l.run #[]).2 := by
  match hnext : l.step? with
  | none =>
    rw [run_of_stop hnext]
    exact .stop hnext
  | some (none, next) =>
    rw [run_of_step hnext]
    exact .step hnext (reading_run next)
  | some (some token, next) =>
    rw [run_of_complete hnext, run_eq]
    simpa using Reading.step hnext (reading_run next)
termination_by l.work
decreasing_by all_goals exact work_step hnext

/-- A text is read step by step. -/
theorem reading_read (l : Lexer) (text : List Char) :
    (l.extend text).Reading (l.read text).1 (l.read text).2 :=
  reading_run (l.extend text)

/-- There is one reading of a lexer. -/
theorem Reading.eq_run {l last : Lexer} {tokens : List Token} (h : l.Reading tokens last) :
    tokens = (l.run #[]).1.toList ∧ last = (l.run #[]).2 := by
  induction h with
  | stop h =>
    rw [run_of_stop h]
    exact ⟨rfl, rfl⟩
  | @step l next last completed tokens h hrest ih =>
    cases completed with
    | none =>
      rw [run_of_step h]
      exact ih
    | some token =>
      rw [run_of_complete h, run_eq]
      simpa using ih

end Lexer

end TemplateTree
