/-
A lexer with a cursor.

A lexer keeps the characters that it has not read.  It may as well keep all the text that ever
arrived, with a place in it: to consume a character is to go on by one place, and to leave it to
another state is to go back by one.  `Cursor.step` is one step in these terms, in which going
back may fail, and `Cursor.loop` takes steps until the text is consumed or a step has to wait.

The place goes back and forth, so it does not show that the loop ends.  What is left to do shows
it, twice the unread characters and one more in a hasty state, since a character that was left
to another state is not left again.  So the loop takes no more steps than that, no step goes back
before the place where it began, and what comes of the text is what the lexer makes of it.
-/
import TemplateTree.Proofs.OneCharacter

namespace TemplateTree

/-- A lexer that keeps all its text, and a place in it. -/
structure Cursor where
  state : LexerState := .data
  /-- The token under construction. -/
  pending : Option Token := none
  /-- The text that arrived, to which more is only ever added. -/
  buffer : List Char := []
  /-- How many of its characters are consumed. -/
  place : Nat := 0

namespace Cursor

/-- The characters that are not consumed. -/
def unread (k : Cursor) : List Char :=
  k.buffer.drop k.place

/-- The lexer that has as much to read. -/
def lexer (k : Cursor) : Lexer :=
  ⟨k.state, k.pending, k.unread⟩

/-- The same with more text. -/
def extend (k : Cursor) (text : List Char) : Cursor :=
  { k with buffer := k.buffer ++ text }

/-- A character in front of the cursor, `n` places on. -/
def peek? (k : Cursor) (n : Nat) : Option Char :=
  k.buffer[k.place + n]?

/-- Goes on by one place. -/
def advance (k : Cursor) : Cursor :=
  { k with place := k.place + 1 }

/-- Goes back by one place, which is not possible at the beginning. -/
def back? (k : Cursor) : Option Cursor :=
  match k.place with
  | 0 => none
  | place + 1 => some { k with place }

/-- What a step comes to. -/
inductive Stepped
  /-- More text is needed. -/
  | waits
  | goesOn (completed : Option Token) (next : Cursor)
  /-- There was no place to go back to. -/
  | fails

/-- What comes of a character that was consumed.  If it is to be read again, the cursor goes
back. -/
def consumed (k : Cursor) (c : Char) : Stepped :=
  let turn := Turn.take k.state k.pending c
  let next := { k with state := turn.state, pending := turn.pending }
  if turn.again then
    match next.back? with
    | none => .fails
    | some next => .goesOn turn.completed next
  else .goesOn turn.completed next

/-- One step.  After `<!`, a dash asks for the next character before it is consumed: two dashes are
consumed together, and open a comment. -/
def step (k : Cursor) : Stepped :=
  match k.peek? 0 with
  | none => .waits
  | some c =>
    if k.state = .markupDeclaration ∧ c = '-' then
      match k.peek? 1 with
      | none => .waits
      | some d =>
        if d = '-' then
          .goesOn none
            { k.advance.advance with state := .commentStart, pending := some (.comment "") }
        else k.advance.consumed c
    else k.advance.consumed c

variable {k : Cursor} {c : Char} {rest : List Char}

/-! ### Steps -/

theorem peek?_eq (k : Cursor) (n : Nat) : k.peek? n = k.unread[n]? := by
  rw [peek?, unread, List.getElem?_drop]

theorem unread_advance (h : k.unread = c :: rest) : k.advance.unread = rest := by
  rw [unread] at h ⊢
  rw [advance, ← List.drop_drop, h, List.drop_succ_cons, List.drop_zero]

/-- A step of the cursor beside a step of the lexer. -/
inductive StepsAlike (k : Cursor) : Stepped → Option (Option Token × Lexer) → Prop
  | waits : StepsAlike k .waits none
  | goesOn (completed : Option Token) {next : Cursor} (hplace : k.place ≤ next.place)
      (hbuffer : next.buffer = k.buffer) :
    StepsAlike k (.goesOn completed next) (some (completed, next.lexer))

/-- A character that is consumed is a turn of the lexer.  The cursor goes back to no place that it
had not left. -/
theorem stepsAlike_consumed (hunread : k.unread = c :: rest)
    (hopening : k.lexer.commentOpening = .no) :
    k.StepsAlike (k.advance.consumed c) k.lexer.step? := by
  have hstep : k.lexer.step? = some ((Turn.take k.state k.pending c).completed,
      ⟨(Turn.take k.state k.pending c).state, (Turn.take k.state k.pending c).pending,
        if (Turn.take k.state k.pending c).again then c :: rest else rest⟩) := by
    have hlexer : k.lexer = ⟨k.state, k.pending, c :: rest⟩ := by rw [lexer, hunread]
    rw [hlexer] at hopening ⊢
    rw [Lexer.step?, hopening]
  have hstate : k.advance.state = k.state := rfl
  have hpending : k.advance.pending = k.pending := rfl
  rw [hstep, consumed, hstate, hpending]
  by_cases hagain : (Turn.take k.state k.pending c).again = true
  · simp only [hagain, if_true, ← hunread]
    exact .goesOn _ (Nat.le_refl k.place) rfl
  · simp only [hagain, if_false, Bool.false_eq_true, ← unread_advance hunread]
    exact .goesOn _ (Nat.le_succ k.place) rfl

/-- **The cursor and the lexer take the same steps**: no step fails, and none ends before the place
where it began. -/
theorem stepsAlike (k : Cursor) : k.StepsAlike k.step k.lexer.step? := by
  cases hunread : k.unread with
  | nil =>
    rw [lexer, hunread, Lexer.step?_of_unread_nil, step, peek?_eq, hunread]
    exact .waits
  | cons c rest =>
    have hopening :
        k.lexer.commentOpening = Lexer.commentOpening ⟨k.state, k.pending, c :: rest⟩ := by
      rw [lexer, hunread]
    have hfirst : k.peek? 0 = some c := by
      rw [peek?_eq, hunread]
      rfl
    have hsecond : k.peek? 1 = rest.head? := by
      rw [peek?_eq, hunread, List.getElem?_cons_succ, List.head?_eq_getElem?]
    simp only [step, hfirst]
    split
    · rename_i hdash
      obtain ⟨hstate, rfl⟩ := hdash
      cases rest with
      | nil =>
        rw [hsecond, lexer, hunread, hstate, Lexer.step?_of_dash]
        exact .waits
      | cons d more =>
        simp only [hsecond, List.head?_cons]
        split
        · rename_i hcomment
          subst hcomment
          have hstep : k.lexer.step? = some (none, ⟨.commentStart, some (.comment ""), more⟩) := by
            rw [lexer, hunread, hstate]
            rfl
          rw [hstep, ← unread_advance (unread_advance hunread)]
          exact .goesOn none (Nat.le_add_right k.place 2) rfl
        · rename_i hcomment
          refine stepsAlike_consumed hunread ?_
          rw [hopening, hstate]
          simp [Lexer.commentOpening, hcomment]
    · rename_i hdash
      refine stepsAlike_consumed hunread ?_
      rw [hopening]
      unfold Lexer.commentOpening
      split
      · rename_i hstate
        have hc : c ≠ '-' := fun heq => hdash ⟨hstate, heq⟩
        simp [hc]
      · rfl

/-! ### The loop -/

/-- What a loop comes to. -/
structure Run where
  /-- The cursors at which a step was tried. -/
  tried : List Cursor
  /-- The tokens that were completed. -/
  tokens : List Token
  last : Cursor

/-- Takes steps until the text is consumed or a step has to wait.  Nothing if a step fails. -/
def loop (k : Cursor) : Option Run :=
  if k.buffer.length ≤ k.place then some ⟨[], [], k⟩
  else
    match _h : k.step with
    | .fails => none
    | .waits => some ⟨[k], [], k⟩
    | .goesOn completed next =>
      next.loop.map fun run => ⟨k :: run.tried, completed.toList ++ run.tokens, run.last⟩
termination_by k.lexer.work
decreasing_by
  have halike := k.stepsAlike
  rw [_h] at halike
  generalize hstep : k.lexer.step? = stepped at halike
  cases halike
  exact Lexer.work_step hstep

theorem loop_of_waits (hunread : k.place < k.buffer.length) (h : k.step = .waits) :
    k.loop = some ⟨[k], [], k⟩ := by
  rw [loop, if_neg (Nat.not_le.mpr hunread)]
  split <;> simp_all

theorem loop_of_goesOn {completed : Option Token} {next : Cursor}
    (hunread : k.place < k.buffer.length) (h : k.step = .goesOn completed next) :
    k.loop =
      next.loop.map fun run => ⟨k :: run.tried, completed.toList ++ run.tokens, run.last⟩ := by
  rw [loop, if_neg (Nat.not_le.mpr hunread)]
  split <;> simp_all

/-- A loop from a cursor, beside the reading of a lexer. -/
structure Run.Follows (k : Cursor) (run : Run) : Prop where
  length : run.tried.length ≤ k.lexer.work
  tried : ∀ other ∈ run.tried, k.place ≤ other.place
  place : k.place ≤ run.last.place
  buffer : run.last.buffer = k.buffer
  reads : k.lexer.run #[] = (run.tokens.toArray, run.last.lexer)

/-- A step in front of a loop. -/
theorem Run.Follows.cons {completed : Option Token} {next : Cursor} {run : Run}
    (h : run.Follows next) (hplace : k.place ≤ next.place) (hbuffer : next.buffer = k.buffer)
    (hlexer : k.lexer.step? = some (completed, next.lexer)) :
    Run.Follows k ⟨k :: run.tried, completed.toList ++ run.tokens, run.last⟩ := by
  refine ⟨?_, ?_, hplace.trans h.place, h.buffer.trans hbuffer, ?_⟩
  · have hwork := Lexer.work_step hlexer
    have hlength := h.length
    rw [List.length_cons]
    omega
  · refine List.forall_mem_cons.mpr ⟨Nat.le_refl _, fun other hmem => ?_⟩
    exact hplace.trans (h.tried other hmem)
  · cases completed with
    | none => exact (Lexer.run_of_step hlexer _).trans h.reads
    | some token =>
      rw [Lexer.run_of_complete hlexer, Lexer.run_eq, h.reads]
      simp

/-- **The loop ends and no step of it fails**, and it has read what the lexer reads. -/
theorem exists_loop (k : Cursor) : ∃ run, k.loop = some run ∧ run.Follows k := by
  by_cases hconsumed : k.buffer.length ≤ k.place
  · have hstop : k.lexer.step? = none := by
      rw [lexer, unread, List.drop_eq_nil_of_le hconsumed]
      exact Lexer.step?_of_unread_nil _ _
    refine ⟨⟨[], [], k⟩, by rw [loop, if_pos hconsumed], Nat.zero_le _, by simp, Nat.le_refl _, rfl,
      ?_⟩
    exact Lexer.run_of_stop hstop _
  · have hunread := Nat.not_le.mp hconsumed
    have halike := k.stepsAlike
    generalize hstep : k.step = stepped at halike
    generalize hlexer : k.lexer.step? = moved at halike
    cases halike with
    | waits =>
      refine ⟨_, loop_of_waits hunread hstep, ?_, by simp, Nat.le_refl _, rfl, ?_⟩
      · have hleft : 0 < k.unread.length := by
          rw [unread, List.length_drop]
          omega
        show 1 ≤ 2 * k.unread.length + _
        omega
      · exact Lexer.run_of_stop hlexer _
    | @goesOn completed next hplace hbuffer =>
      have hwork := Lexer.work_step hlexer
      obtain ⟨run, hloop, hfollows⟩ := next.exists_loop
      refine ⟨_, ?_, hfollows.cons hplace hbuffer hlexer⟩
      rw [loop_of_goesOn hunread hstep, hloop, Option.map_some]
termination_by k.lexer.work

/-- **A text is consumed in a bounded number of steps.**  Whatever the state, the token in hand, the
buffer and the place in it, the loop on more text ends, after at most twice as many steps as there
are unread characters, and one.  No step goes back before the place where the loop began.  In the
end every character is consumed, but perhaps for a dash at the very end, where markup has begun with
`<!`.  What comes of it is what a lexer with those unread characters makes of the text. -/
theorem loop_bounded (k : Cursor) (text : String) :
    ∃ run, (k.extend text.toList).loop = some run ∧
      run.tried.length ≤ 2 * (k.extend text.toList).unread.length + 1 ∧
      (∀ other ∈ run.tried, k.place ≤ other.place) ∧ k.place ≤ run.last.place ∧
      run.last.buffer = k.buffer ++ text.toList ∧
      (run.last.unread = [] ∨ run.last.state = .markupDeclaration ∧ run.last.unread = ['-']) ∧
      (k.place ≤ k.buffer.length → k.lexer.feed text = (run.tokens, run.last.lexer)) := by
  obtain ⟨run, hloop, hlength, htried, hplace, hbuffer, hreads⟩ :=
    (k.extend text.toList).exists_loop
  refine ⟨run, hloop, hlength.trans ?_, htried, hplace, hbuffer, ?_, fun hwithin => ?_⟩
  · show 2 * (k.extend text.toList).unread.length + (if k.state.isHasty then 1 else 0) ≤ _
    split <;> omega
  · have hstop := Lexer.step?_run (k.extend text.toList).lexer #[]
    rw [hreads] at hstop
    exact Lexer.waits_of_stop hstop
  · have hlexer : (k.extend text.toList).lexer = k.lexer.extend text.toList := by
      simp [lexer, unread, extend, Lexer.extend, List.drop_append_of_le_length hwithin]
    rw [Lexer.feed_eq_read, Lexer.read, ← hlexer, hreads]

/-- The text before is consumed, and a digit shows that its bracket opens nothing.  It is read
again, from where the loop began. -/
theorem loop_bounded_behind_bracket :
    ∃ (k : Cursor) (run : Run), k = ⟨.tagOpen, none, "a <".toList, 3⟩ ∧
      k.place ≤ k.buffer.length ∧ (k.extend "3".toList).loop = some run ∧
      run.tried.length ≤ 3 ∧ (∀ other ∈ run.tried, 3 ≤ other.place) ∧
      k.lexer.feed "3" = (run.tokens, run.last.lexer) := by
  obtain ⟨run, hloop, hlength, htried, -, -, -, hfeed⟩ :=
    loop_bounded ⟨.tagOpen, none, "a <".toList, 3⟩ "3"
  exact ⟨_, run, rfl, by decide, hloop, hlength, htried, hfeed (by decide)⟩

example : (extend ⟨.tagOpen, none, "a <".toList, 3⟩ "3".toList).loop.map (·.tried.map (·.place)) =
    some [3, 3] := by
  cbv

end Cursor

end TemplateTree
