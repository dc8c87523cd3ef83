/-
What the builder of programs has so far.

A builder is a root and a stack of frames, each with one or two rows of statements
under construction.  Laid out from left to right, all of that is a single row of
events, newest first: the innermost frame, then those around it, then the root.
`Adds` says what taking an event can do, and `row_add` that it adds the event to this row
and does nothing else, so a builder has exactly the events that it took, in their order.

The other two readings of a builder forget most of it.  `Tidy` says that no row in it
has an empty text or two texts side by side, and `shape` keeps of each frame only what
decides whether the next event is accepted.
-/
import TemplateTree.Proofs.Linear

namespace TemplateTree

/-! ### Steps that may fail -/

/-- What goes on after something, and succeeds, goes on after something that succeeded. -/
theorem exists_of_bind_ok {α β ε : Type} {first : Except ε α} {next : α → Except ε β} {b : β}
    (h : first >>= next = .ok b) : ∃ a, first = .ok a ∧ next a = .ok b := by
  match first, h with
  | .ok a, h => exact ⟨a, rfl, h⟩

/-- What fails, fails at once or in what goes on after it. -/
theorem exists_of_bind_error {α β ε : Type} {first : Except ε α} {next : α → Except ε β} {e : ε}
    (h : first >>= next = .error e) : first = .error e ∨ ∃ a, first = .ok a ∧ next a = .error e := by
  match first, h with
  | .error _, h =>
    cases h
    exact .inl rfl
  | .ok a, h => exact .inr ⟨a, rfl, h⟩

section Steps

variable {α β γ ε : Type} {step : β → α → Except ε β}

/-- Steps that succeed begin with one that does. -/
theorem exists_of_foldlM_cons {x : α} {rest : List α} {b b' : β}
    (h : (x :: rest).foldlM step b = .ok b') :
    ∃ next, step b x = .ok next ∧ rest.foldlM step next = .ok b' := by
  rw [List.foldlM_cons] at h
  cases hstep : step b x with
  | error fault =>
    rw [hstep] at h
    cases h
  | ok next =>
    rw [hstep] at h
    exact ⟨next, rfl, h⟩

/-- What every step preserves, steps preserve. -/
theorem foldlM_preserves {Holds : β → Prop}
    (hstep : ∀ {b b' : β} {x : α}, Holds b → step b x = .ok b' → Holds b') :
    ∀ (xs : List α) {b b' : β}, Holds b → xs.foldlM step b = .ok b' → Holds b' := by
  intro xs
  induction xs with
  | nil =>
    intro b b' hb h
    cases h
    exact hb
  | cons x rest ih =>
    intro b b' hb h
    obtain ⟨next, hnext, hrest⟩ := exists_of_foldlM_cons h
    exact ih (hstep hb hnext) hrest

/-- What follows every step, follows steps. -/
theorem foldlM_follows {read : β → γ} {add : γ → α → γ}
    (hstep : ∀ {b b' : β} {x : α}, step b x = .ok b' → read b' = add (read b) x) :
    ∀ (xs : List α) {b b' : β}, xs.foldlM step b = .ok b' → read b' = xs.foldl add (read b) := by
  intro xs
  induction xs with
  | nil =>
    intro b b' h
    cases h
    rfl
  | cons x rest ih =>
    intro b b' h
    obtain ⟨next, hnext, hrest⟩ := exists_of_foldlM_cons h
    rw [ih hrest, hstep hnext, List.foldl_cons]

end Steps

namespace Statement

/-- A program under construction as events, both newest first. -/
def row (program : Program) : List Event :=
  (eventsOf program.reverse).reverse

@[simp] theorem row_nil : row [] = [] := rfl

@[simp] theorem row_cons (statement : Statement) (earlier : Program) :
    row (statement :: earlier) = statement.events.reverse ++ row earlier := by
  simp [row, eventsOf_append, eventsOf]

/-- A text added to a program is a text added to its events, if no text stands right
below them. -/
theorem row_pushText (text : String) (program : Program) {below : List Event}
    (h : ∀ event ∈ below.head?, event.isText = false) :
    row (pushText text program) ++ below = Event.push (row program ++ below) (.text text) := by
  by_cases hempty : text = ""
  · rw [hempty, pushText_empty, Event.push_text_empty]
  unfold pushText
  rw [if_neg hempty]
  cases program with
  | nil => simp [events, Event.push_text_of_head below hempty h]
  | cons statement earlier =>
    cases statement with
    | content last => simp [events, Event.push]
    | mustache m =>
      rw [Event.push_text_of_head _ hempty (by simp [events, Event.isText])]
      simp [events]
    | block expression body inverse =>
      rw [Event.push_text_of_head _ hempty (by simp [events, Event.isText])]
      simp [events]

end Statement

namespace Frame

/-- The part of a block that is being built. -/
def target (f : Frame) : Program :=
  match f.inverse with
  | none => f.body
  | some inverse => inverse

/-- The events of a block before the part that is being built, newest first. -/
def below (f : Frame) : List Event :=
  match f.inverse with
  | none => [.opening f.expression]
  | some _ => .otherwise :: (Statement.row f.body ++ [.opening f.expression])

/-- The events of a block so far, newest first. -/
def row (f : Frame) : List Event :=
  Statement.row f.target ++ f.below

theorem target_modify (f : Frame) (change : Program → Program) :
    (f.modify change).target = change f.target := by
  unfold modify target
  match f.inverse with
  | none => simp
  | some inverse => simp

theorem below_modify (f : Frame) (change : Program → Program) :
    (f.modify change).below = f.below := by
  unfold modify below
  match f.inverse with
  | none => simp
  | some inverse => simp

/-- A block begins with its opening, and its other part with the step to it. -/
theorem below_eq_cons (f : Frame) :
    ∃ event earlier, f.below = event :: earlier ∧ event.isText = false := by
  unfold below
  match f.inverse with
  | none => exact ⟨_, _, rfl, rfl⟩
  | some inverse => exact ⟨_, _, rfl, rfl⟩

/-- The events of a closed block, newest first. -/
theorem events_toStatement (f : Frame) :
    f.toStatement.events.reverse = .closing f.expression.path :: f.row := by
  unfold row target below toStatement
  cases f.inverse <;> simp [Statement.events, Statement.inverseEvents, Statement.row]

end Frame

namespace Builder

/-- The program that is being built at the innermost level. -/
def target (b : Builder) : Program :=
  match b.frames with
  | [] => b.root
  | frame :: _ => frame.target

/-- The events before that program, newest first. -/
def below (b : Builder) : List Event :=
  match b.frames with
  | [] => []
  | frame :: outer => frame.below ++ (outer.flatMap Frame.row ++ Statement.row b.root)

/-- All events so far, newest first. -/
def row (b : Builder) : List Event :=
  b.frames.flatMap Frame.row ++ Statement.row b.root

theorem row_eq (b : Builder) : b.row = Statement.row b.target ++ b.below := by
  unfold row target below
  cases b.frames <;> simp [Frame.row]

theorem target_modify (b : Builder) (change : Program → Program) :
    (b.modify change).target = change b.target := by
  unfold modify target
  match b.frames with
  | [] => rfl
  | frame :: outer => exact frame.target_modify change

theorem below_modify (b : Builder) (change : Program → Program) :
    (b.modify change).below = b.below := by
  unfold modify below
  match b.frames with
  | [] => rfl
  | frame :: outer => simp only [frame.below_modify change]

/-- No text stands right before the program that is being built. -/
theorem isText_head_below (b : Builder) : ∀ event ∈ b.below.head?, event.isText = false := by
  intro event hmem
  unfold below at hmem
  match hframes : b.frames with
  | [] => simp [hframes] at hmem
  | frame :: outer =>
    obtain ⟨first, earlier, hbelow, htext⟩ := frame.below_eq_cons
    simp only [hframes, hbelow, List.cons_append, List.head?_cons, Option.mem_some_iff] at hmem
    rw [← hmem]
    exact htext

theorem row_addText (b : Builder) (text : String) :
    (b.addText text).row = Event.push b.row (.text text) := by
  rw [row_eq, row_eq, addText, target_modify, below_modify]
  exact Statement.row_pushText text b.target b.isText_head_below

theorem row_addStatement (b : Builder) (statement : Statement) :
    (b.addStatement statement).row = statement.events.reverse ++ b.row := by
  rw [row_eq, row_eq, addStatement, target_modify, below_modify, Statement.row_cons,
    List.append_assoc]

/-- What taking an event can do. -/
inductive Adds (limit : Nat) (location : Location) (b : Builder) : Event → Builder → Prop
  | text (text : String) : Adds limit location b (.text text) (b.addText text)
  | mustache (m : Mustache) :
    Adds limit location b (.mustache m) (b.addStatement (.mustache m))
  | opening (expression : Expression) (hroom : b.frames.length < limit) :
    Adds limit location b (.opening expression)
      { b with frames := { expression, location } :: b.frames }
  | otherwise {frame : Frame} {outer : List Frame} (hframes : b.frames = frame :: outer)
    (hinverse : frame.inverse = none) :
    Adds limit location b .otherwise
      { b with frames := { frame with inverse := some [] } :: outer }
  | closing {frame : Frame} {outer : List Frame} (hframes : b.frames = frame :: outer) :
    Adds limit location b (.closing frame.expression.path)
      ({ b with frames := outer }.addStatement frame.toStatement)

variable {limit : Nat} {location : Location} {b b' : Builder} {event : Event}

theorem adds_of_add (h : b.add limit location event = .ok b') :
    Adds limit location b event b' := by
  cases event with
  | text text =>
    cases h
    exact .text text
  | mustache m =>
    cases h
    exact .mustache m
  | opening expression =>
    simp only [add, openBlock] at h
    split at h
    · cases h
    · rename_i hroom
      cases h
      exact .opening expression (by omega)
  | otherwise =>
    simp only [add, startInverse] at h
    split at h
    · cases h
    · rename_i frame outer hframes
      split at h
      · cases h
      · rename_i hinverse
        cases h
        exact .otherwise hframes (by simpa using hinverse)
  | closing name =>
    simp only [add, closeBlock] at h
    split at h
    · cases h
    · rename_i frame outer hframes
      split at h
      · cases h
      · rename_i hname
        cases h
        have hpath : frame.expression.path = name := by simpa using hname
        rw [← hpath]
        exact .closing hframes

/-- **Taking an event adds it to the row**, and nothing else changes. -/
theorem row_add (h : b.add limit location event = .ok b') : b'.row = Event.push b.row event := by
  cases adds_of_add h with
  | text text => exact row_addText b text
  | mustache m =>
    rw [row_addStatement, Event.push_of_not_isText _ rfl]
    rfl
  | opening expression hroom => simp [row, Frame.row, Frame.target, Frame.below, Event.push]
  | otherwise hframes hinverse =>
    simp [row, hframes, Frame.row, Frame.target, Frame.below, hinverse, Event.push]
  | closing hframes =>
    rw [row_addStatement, Frame.events_toStatement]
    simp [row, hframes, Event.push]

/-- A row of events is added one by one. -/
theorem row_foldlM_add (events : List Event) (h : events.foldlM (add limit location) b = .ok b') :
    b'.row = events.foldl Event.push b.row :=
  foldlM_follows row_add events h

end Builder

/-! ### Tidy programs -/

namespace Statement

/-- Is this a text? -/
def isContent : Statement → Bool
  | .content _ => true
  | _ => false

/-- Neighbours that are not both texts. -/
def Apart (first second : Statement) : Prop :=
  ¬ (first.isContent = true ∧ second.isContent = true)

mutual

/-- A statement with no empty text and no two texts side by side, at any level of it. -/
def Tidy : Statement → Prop
  | .content text => text ≠ ""
  | .mustache _ => True
  | .block _ body inverse => (AllTidy body ∧ body.IsChain Apart) ∧ TidyInverse inverse

/-- Statements each of which is tidy. -/
def AllTidy : List Statement → Prop
  | [] => True
  | statement :: rest => Tidy statement ∧ AllTidy rest

/-- The same for the program of the other case, if there is one. -/
def TidyInverse : Option (List Statement) → Prop
  | none => True
  | some program => AllTidy program ∧ program.IsChain Apart

end

/-- A program with no empty text and no two texts side by side, at any level of it. -/
def TidyRow (program : Program) : Prop :=
  AllTidy program ∧ program.IsChain Apart

end Statement

/-- A block under construction all of whose parts are tidy. -/
def Frame.Tidy (f : Frame) : Prop :=
  Statement.TidyRow f.body ∧ ∀ inverse ∈ f.inverse, Statement.TidyRow inverse

namespace Builder

/-- A builder all of whose parts are tidy. -/
def Tidy (b : Builder) : Prop :=
  Statement.TidyRow b.root ∧ ∀ f ∈ b.frames, f.Tidy

variable {limit : Nat} {location : Location} {b b' : Builder} {event : Event}

end Builder

end TemplateTree
