/-
Programs from directives.

Open blocks are kept as frames, innermost first, each with the statements its parts
have so far, newest first.  An event goes to the innermost frame, or to the program itself when
none is open; closing a block turns its frame into a statement of the frame around
it.  Nesting is thus never deeper in the machine than the number of frames, and the
limit on it is a comparison with that number.

Segments are taken in order, so the error that is reported is the first in the
source.  A window that is never closed is noticed when its place is reached, and a
block that is never closed only at the end.
-/
import TemplateTree.Directive.Event
import TemplateTree.Statement

namespace TemplateTree

/-- A block that is open; its parts are newest first. -/
structure Frame where
  expression : Expression
  /-- Where the block opens. -/
  location : Location
  body : Program := []
  /-- The other part, from the place where it begins. -/
  inverse : Option Program := none

/-- A program under construction. -/
structure Builder where
  /-- What stands outside of all blocks that are open, newest first. -/
  root : Program := []
  /-- The open blocks, innermost first. -/
  frames : List Frame := []

/-- Changes the part of a block that is being built. -/
def Frame.modify (f : Frame) (change : Program → Program) : Frame :=
  match f.inverse with
  | none => { f with body := change f.body }
  | some inverse => { f with inverse := some (change inverse) }

/-- The statement that a closed block is. -/
def Frame.toStatement (f : Frame) : Statement :=
  .block f.expression f.body.reverse (f.inverse.map List.reverse)

namespace Builder

/-- Changes the program that is being built at the innermost level. -/
def modify (b : Builder) (change : Program → Program) : Builder :=
  match b.frames with
  | [] => { b with root := change b.root }
  | frame :: outer => { b with frames := frame.modify change :: outer }

/-- Adds a text. -/
def addText (b : Builder) (text : String) : Builder :=
  b.modify (Statement.pushText text)

/-- Adds a statement. -/
def addStatement (b : Builder) (statement : Statement) : Builder :=
  b.modify (statement :: ·)

/-- Opens a block, unless that would be one too many. -/
def openBlock (limit : Nat) (location : Location) (expression : Expression) (b : Builder) :
    Except DirectiveFault Builder :=
  if limit ≤ b.frames.length then .error (.nestingTooDeep limit)
  else .ok { b with frames := { expression, location } :: b.frames }

/-- Goes on to the other part of the innermost block, which has only one. -/
def startInverse (b : Builder) : Except DirectiveFault Builder :=
  match b.frames with
  | [] => .error .unexpectedElse
  | frame :: outer =>
    if frame.inverse.isSome then .error .unexpectedElse
    else .ok { b with frames := { frame with inverse := some [] } :: outer }

/-- Closes the innermost block under the name it was opened with. -/
def closeBlock (name : String) (b : Builder) : Except DirectiveFault Builder :=
  match b.frames with
  | [] => .error (.unexpectedClose name)
  | frame :: outer =>
    if frame.expression.path ≠ name then .error (.mismatchedClose frame.expression.path name)
    else .ok ({ b with frames := outer }.addStatement frame.toStatement)

/-- Takes one event; `location` is where its window opens. -/
def add (limit : Nat) (location : Location) (b : Builder) : Event → Except DirectiveFault Builder
  | .text text => .ok (b.addText text)
  | .mustache mustache => .ok (b.addStatement (.mustache mustache))
  | .opening expression => b.openBlock limit location expression
  | .otherwise => b.startInverse
  | .closing name => b.closeBlock name

/-- Takes what a segment says. -/
def addSegment (limit : Nat) (b : Builder) (s : Segment) : Except DirectiveError Builder :=
  match s.events with
  | .error fault => .error ⟨fault, s.location⟩
  | .ok events =>
    match events.foldlM (add limit s.location) b with
    | .error fault => .error ⟨fault, s.location⟩
    | .ok b => .ok b

/-- The program, if every block is closed. -/
def finish (b : Builder) : Except DirectiveError Program :=
  match b.frames with
  | [] => .ok b.root.reverse
  | frame :: _ => .error ⟨.unclosedBlock frame.expression.path, frame.location⟩

end Builder

/-- The program a cut source says. -/
def Cut.program (limit : Nat) (c : Cut) : Except DirectiveError Program := do
  let b ← c.segments.foldlM (Builder.addSegment limit) {}
  match c.unclosed with
  | some location => .error ⟨.unclosedMustache, location⟩
  | none => (b.addText (String.ofList c.text)).finish

/-- How deep blocks may nest unless the caller says otherwise. -/
def maxNesting : Nat := 512

/-- Reads the directives of a source, blocks nesting at most `limit` deep. -/
def parseDirectives (source : String) (limit : Nat := maxNesting) : Except DirectiveError Program :=
  (Cut.ofSource source).program limit

end TemplateTree
