/-
Operations, and runs of them.

A program is put into an assembly by a row of operations.  A block is an opening, its
programs each with an end, and a closing; nesting is gone, since the stack keeps it.
So whatever holds of every operation holds of every program, by one induction on a
list.
-/
import TemplateTree.Assembly.Basic
import TemplateTree.Statement

namespace TemplateTree

/-- What can be done to an assembly. -/
inductive Operation
  | feed (text : String)
  | token (token : Token)
  | mustache (mustache : Mustache)
  | enterBlock (expression : Expression)
  | flushText
  | closeProgram
  | startInverse
  | leaveBlock

namespace Assembly

/-- Does one thing. -/
def apply (a : Assembly) : Operation → Outcome
  | .feed text => a.feed text
  | .token token => a.mergeToken token
  | .mustache m => a.mergeMustache m
  | .enterBlock expression => a.enterBlock expression
  | .flushText => ⟨a.flushText, none⟩
  | .closeProgram => a.closeProgram
  | .startInverse => a.startInverse
  | .leaveBlock => a.leaveBlock

/-- Does one thing after another, up to the first that fails. -/
def run (a : Assembly) : List Operation → Outcome
  | [] => ⟨a, none⟩
  | operation :: rest => (a.apply operation).andThen (run · rest)

theorem run_append (a : Assembly) (first second : List Operation) :
    a.run (first ++ second) = (a.run first).andThen (run · second) := by
  induction first generalizing a with
  | nil => rfl
  | cons operation rest ih =>
    simp only [List.cons_append, run]
    cases h : (a.apply operation).error with
    | none => simp only [Outcome.andThen, h]; exact ih _
    | some e => simp [Outcome.andThen, h]

end Assembly

namespace Statement

mutual

/-- The operations that a statement stands for. -/
def operations : Statement → List Operation
  | .content text => [.feed text]
  | .mustache m => [.mustache m]
  | .block expression body inverse =>
    .enterBlock expression ::
      (operationsOf body ++ .closeProgram :: (inverseOperations inverse ++ [.leaveBlock]))

/-- The operations that a program stands for. -/
def operationsOf : List Statement → List Operation
  | [] => []
  | statement :: rest => operations statement ++ operationsOf rest

/-- The operations of the program for the other case, if there is one. -/
def inverseOperations : Option (List Statement) → List Operation
  | none => []
  | some program => .startInverse :: (operationsOf program ++ [.closeProgram])

end

end Statement

end TemplateTree
