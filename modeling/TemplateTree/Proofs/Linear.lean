/-
Programs laid out in a line.

A program is a tree of statements, and what a source says is a row of events.  The
two are tied together by writing the tree out from left to right: a block becomes its
opening, its body, its closing, and between them the step to its other part, if it has
one.  Everything that reads a program in order reads this row: it is what the reader
of directives turns round, and what the assembly is fed.

Texts are the one thing that a row of events has more of than a program.  Two texts
with only a comment between them are one statement, and an empty one is none, so a
source is compared with a program after its texts have been joined.
-/
import TemplateTree.Proofs.Chunks

namespace TemplateTree

namespace Statement

mutual

/-- A statement from left to right. -/
def events : Statement → List Event
  | .content text => [.text text]
  | .mustache m => [.mustache m]
  | .block expression body inverse =>
    .opening expression :: (eventsOf body ++ (inverseEvents inverse ++ [.closing expression.path]))

/-- A program from left to right. -/
def eventsOf : List Statement → List Event
  | [] => []
  | statement :: rest => events statement ++ eventsOf rest

/-- The program for the other case, if there is one, after the step to it. -/
def inverseEvents : Option (List Statement) → List Event
  | none => []
  | some program => .otherwise :: eventsOf program

end

theorem eventsOf_append (first second : Program) :
    eventsOf (first ++ second) = eventsOf first ++ eventsOf second := by
  induction first with
  | nil => rfl
  | cons statement rest ih => rw [List.cons_append, eventsOf, eventsOf, ih, List.append_assoc]

end Statement

namespace Event

/-- Is this a run of text? -/
def isText : Event → Bool
  | .text _ => true
  | _ => false

/-! ### Joining texts -/

/-- Adds an event to a row that is kept newest first.  An empty text leaves no trace, and
a text after a text becomes one with it. -/
def push : List Event → Event → List Event
  | .text last :: earlier, .text next => .text (last ++ next) :: earlier
  | row, .text next => if next = "" then row else .text next :: row
  | row, event => event :: row

/-- A row of events without empty texts, and with neighbouring texts joined. -/
def joined (events : List Event) : List Event :=
  (events.foldl push []).reverse

theorem push_of_not_isText (row : List Event) {event : Event} (h : event.isText = false) :
    push row event = event :: row := by
  cases event with
  | text next => simp [isText] at h
  | _ => simp [push]

@[simp] theorem push_text_empty (row : List Event) : push row (.text "") = row := by
  cases row with
  | nil => simp [push]
  | cons event earlier => cases event <;> simp [push]

/-- A text starts afresh where no text stands before it. -/
theorem push_text_of_head (row : List Event) {next : String} (hne : next ≠ "")
    (h : ∀ event ∈ row.head?, event.isText = false) : push row (.text next) = .text next :: row := by
  cases row with
  | nil => simp [push, hne]
  | cons event earlier =>
    have hevent := h event (by simp)
    cases event with
    | text last => simp [isText] at hevent
    | _ => simp [push, hne]

/-! ### What the assembly does

The end of a program and the end of a block are one event, and two operations. -/

/-- The operations that an event stands for. -/
def operations : Event → List Operation
  | .text content => [.feed content]
  | .mustache m => [.mustache m]
  | .opening expression => [.enterBlock expression]
  | .otherwise => [.closeProgram, .startInverse]
  | .closing _ => [.closeProgram, .leaveBlock]

end Event

namespace Statement

mutual

theorem operations_eq (statement : Statement) :
    statement.operations = statement.events.flatMap Event.operations := by
  cases statement with
  | content text => rfl
  | mustache m => rfl
  | block expression body inverse =>
    rw [operations, events, operationsOf_eq body, List.flatMap_cons, List.flatMap_append]
    cases inverse with
    | none => simp [inverseOperations, inverseEvents, Event.operations]
    | some program =>
      simp [inverseOperations, inverseEvents, Event.operations, operationsOf_eq program]

/-- **The assembly reads a program from left to right.** -/
theorem operationsOf_eq (program : List Statement) :
    operationsOf program = (eventsOf program).flatMap Event.operations := by
  cases program with
  | nil => rfl
  | cons statement rest =>
    rw [operationsOf, eventsOf, List.flatMap_append, operations_eq statement, operationsOf_eq rest]

end

end Statement

end TemplateTree
