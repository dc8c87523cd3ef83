/-
The lexer.

Markup arrives in pieces, between which expressions and blocks may stand.  A lexer
therefore keeps all that the next piece needs: its state, the token under
construction, and the characters it has not been able to read yet.  There is only one
reason for such a character: after `<!`, a dash says nothing until the next
character is seen.

`step?` reads one character, or the two dashes that open a comment.  Each step makes
`work` smaller, twice the unread characters and one more in a hasty state, and so
reading ends.
-/
import TemplateTree.Lexer.Turn

namespace TemplateTree

/-- A lexer between two characters. -/
structure Lexer where
  state : LexerState := .data
  /-- The token under construction. -/
  pending : Option Token := none
  /-- The characters not read yet. -/
  unread : List Char := []
  deriving DecidableEq, Repr

namespace Lexer

/-- Does a comment open here?  The answer needs two characters. -/
inductive CommentOpening
  | yes
  | no
  | undecided
  deriving DecidableEq, Repr

/-- After `<!`, two dashes open a comment; one dash at the end of the text leaves it
open. -/
def commentOpening (l : Lexer) : CommentOpening :=
  if l.state = .markupDeclaration then
    match l.unread with
    | ['-'] => .undecided
    | '-' :: '-' :: _ => .yes
    | _ => .no
  else .no

/-- Reads on by one step, and gives the token it completed, if any; nothing if more text
is needed. -/
def step? (l : Lexer) : Option (Option Token × Lexer) :=
  match l.commentOpening with
  | .undecided => none
  | .yes => some (none, ⟨.commentStart, some (.comment ""), l.unread.drop 2⟩)
  | .no =>
    match l.unread with
    | [] => none
    | c :: rest =>
      let turn := Turn.take l.state l.pending c
      some (turn.completed, ⟨turn.state, turn.pending, if turn.again then c :: rest else rest⟩)

/-- What is left to do. -/
def work (l : Lexer) : Nat :=
  2 * l.unread.length + if l.state.isHasty then 1 else 0

/-- Every step leaves less to do. -/
theorem work_step {l l' : Lexer} {completed : Option Token} (h : l.step? = some (completed, l')) :
    l'.work < l.work := by
  unfold step? at h
  split at h
  · cases h
  · rename_i hc
    cases h
    unfold commentOpening at hc
    split at hc
    · split at hc
      · cases hc
      · rename_i rest hu
        simp only [work, LexerState.isHasty, hu]
        simp
        omega
      · cases hc
    · cases hc
  · split at h
    · cases h
    · rename_i c rest hu
      cases h
      simp only [work, hu]
      by_cases ha : (Turn.take l.state l.pending c).again = true
      · obtain ⟨h₁, h₂⟩ := Turn.isHasty_of_again ha
        simp [ha, h₁, h₂]
      · simp only [ha, Bool.false_eq_true, if_false, List.length_cons]
        have h₁ : ∀ b : Bool, (if b = true then 1 else 0) ≤ 1 := by decide
        have h₂ := h₁ (Turn.take l.state l.pending c).state.isHasty
        omega

/-- Reads as far as the text goes; `done` holds the tokens completed before. -/
def run (l : Lexer) (done : Array Token) : Array Token × Lexer :=
  match _h : l.step? with
  | none => (done, l)
  | some (none, next) => next.run done
  | some (some token, next) => next.run (done.push token)
termination_by l.work
decreasing_by all_goals exact work_step _h

/-- Takes a piece of text and gives the tokens it completed. -/
def feed (l : Lexer) (text : String) : List Token × Lexer :=
  let (tokens, next) := run { l with unread := l.unread ++ text.toList } #[]
  (tokens.toList, next)

/-- Hands out the run of text under construction.  Markup half read is left alone. -/
def takeText (l : Lexer) : Option String × Lexer :=
  match l.state, l.pending with
  | .data, some (.text content) => (some content, { l with pending := none })
  | _, _ => (none, l)

/-- The dashes that a state holds back. -/
def heldDashes : LexerState → String
  | .commentStartDash | .commentEndDash => "-"
  | .commentEnd => "--"
  | _ => ""

/-- Adds a text to the comment under construction, after the dashes held back, which
thereby stop being a part of the comment's end. -/
def foldIntoComment? (l : Lexer) (text : String) : Option Lexer :=
  match l.state.isInComment, l.pending with
  | true, some (.comment content) =>
    some { l with state := .comment, pending := some (.comment (content ++ heldDashes l.state ++ text)) }
  | _, _ => none

/-- The tokens of a whole text.  A run of text at its end is one of them; a tag or a
comment that is not finished is not. -/
def tokenize (text : String) : List Token :=
  let (tokens, l) := feed {} text
  match l.takeText.1 with
  | some content => tokens ++ [.text content]
  | none => tokens

/-! ### Small facts -/

theorem run_of_stop {l : Lexer} (h : l.step? = none) (done : Array Token) :
    l.run done = (done, l) := by
  rw [run]
  split <;> simp_all

theorem run_of_step {l next : Lexer} (h : l.step? = some (none, next)) (done : Array Token) :
    l.run done = next.run done := by
  rw [run]
  split <;> simp_all

theorem run_of_complete {l next : Lexer} {token : Token} (h : l.step? = some (some token, next))
    (done : Array Token) : l.run done = next.run (done.push token) := by
  rw [run]
  split <;> simp_all

/-- The tokens completed before stay in front and change nothing else. -/
theorem run_eq (l : Lexer) (done : Array Token) :
    l.run done = (done ++ (l.run #[]).1, (l.run #[]).2) := by
  match h : l.step? with
  | none => simp [run_of_stop h]
  | some (none, next) =>
    rw [run_of_step h, run_of_step h]
    exact run_eq next done
  | some (some token, next) =>
    rw [run_of_complete h, run_of_complete h, run_eq next (done.push token),
      run_eq next (#[].push token)]
    simp
termination_by l.work
decreasing_by all_goals exact work_step h

end Lexer

end TemplateTree
