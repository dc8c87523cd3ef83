/-
The directives of a source form a grammar.

The reader of directives is a loop over windows with a stack of open blocks.  What it
accepts has a description without either: `Event.Nested` is a grammar, in which a block
is an opening, a nested row, perhaps the step to a second nested row, and the closing
under the name that was opened.  And what it returns has a description without either:
the events of the source from left to right, texts joined, are the events of the program.

Acceptance depends on very little of a builder, the names of the open blocks and whether
each has its second part.  That is its `shape`, and `Shape.take` is the builder on
shapes.  The two halves of the proof meet there: the builder accepts what its shape does,
and a shape goes back to where it was exactly on nested rows.
-/
import TemplateTree.Proofs.Builder

namespace TemplateTree

/-- A row of events in which blocks are well nested, at most `room` deep: each is closed
under the name it was opened with, and goes on to its other part at most once. -/
inductive Event.Nested : Nat → List Event → Prop
  | nil (room : Nat) : Nested room []
  | text (room : Nat) (content : String) : Nested room [.text content]
  | mustache (room : Nat) (m : Mustache) : Nested room [.mustache m]
  | block {room : Nat} (expression : Expression) {body : List Event} (hbody : Nested room body) :
      Nested (room + 1) (.opening expression :: (body ++ [.closing expression.path]))
  | blockOtherwise {room : Nat} (expression : Expression) {body inverse : List Event}
      (hbody : Nested room body) (hinverse : Nested room inverse) :
      Nested (room + 1)
        (.opening expression :: (body ++ .otherwise :: (inverse ++ [.closing expression.path])))
  | append {room : Nat} {first second : List Event} (hfirst : Nested room first)
      (hsecond : Nested room second) : Nested room (first ++ second)

/-- Of each open block, innermost first, its name and whether it went on to its other
part. -/
abbrev Shape := List (String × Bool)

namespace Shape

/-- What an event does to the open blocks, if they can take it. -/
def take (limit : Nat) : Shape → Event → Option Shape
  | shape, .text _ => some shape
  | shape, .mustache _ => some shape
  | shape, .opening expression =>
    if limit ≤ shape.length then none else some ((expression.path, false) :: shape)
  | (name, false) :: outer, .otherwise => some ((name, true) :: outer)
  | _, .otherwise => none
  | (name, _) :: outer, .closing found => if name = found then some outer else none
  | [], .closing _ => none

/-! ### Nested rows leave the open blocks as they were -/

/-- A row of events that closes the open blocks and leaves none. -/
inductive Completes (limit : Nat) : Shape → List Event → Prop
  | done {events : List Event} (h : Event.Nested limit events) : Completes limit [] events
  | close {name : String} {begun : Bool} {outer : Shape} {room : Nat} {body rest : List Event}
      (hroom : outer.length + room + 1 = limit) (hbody : Event.Nested room body)
      (hrest : Completes limit outer rest) :
      Completes limit ((name, begun) :: outer) (body ++ .closing name :: rest)
  | goOn {name : String} {outer : Shape} {room : Nat} {body rest : List Event}
      (hroom : outer.length + room + 1 = limit) (hbody : Event.Nested room body)
      (hrest : Completes limit ((name, true) :: outer) rest) :
      Completes limit ((name, false) :: outer) (body ++ .otherwise :: rest)

/-- A nested row may come first. -/
theorem Completes.prepend {limit room : Nat} {shape : Shape} {first rest : List Event}
    (hroom : shape.length + room = limit) (hfirst : Event.Nested room first)
    (h : Completes limit shape rest) : Completes limit shape (first ++ rest) := by
  cases h with
  | done hrest =>
    simp only [List.length_nil, Nat.zero_add] at hroom
    exact .done (.append (hroom ▸ hfirst) hrest)
  | @close name begun outer room' body rest hroom' hbody hrest =>
    simp only [List.length_cons] at hroom
    have hsame : room = room' := by omega
    rw [← List.append_assoc]
    exact .close hroom' (.append (hsame ▸ hfirst) hbody) hrest
  | @goOn name outer room' body rest hroom' hbody hrest =>
    simp only [List.length_cons] at hroom
    have hsame : room = room' := by omega
    rw [← List.append_assoc]
    exact .goOn hroom' (.append (hsame ▸ hfirst) hbody) hrest

/-- Before what closes a block there may be its opening. -/
theorem Completes.opening {limit : Nat} {shape : Shape} {expression : Expression}
    {rest : List Event} (h : Completes limit ((expression.path, false) :: shape) rest) :
    Completes limit shape (.opening expression :: rest) := by
  cases h with
  | @close _ _ _ room body rest hroom' hbody hrest =>
    have hblock := Event.Nested.block expression hbody
    have hall := hrest.prepend (by omega) hblock
    simpa using hall
  | @goOn _ _ room body rest hroom' hbody hrest =>
    cases hrest with
    | @close _ _ _ room' inverse rest hroom'' hinverse hrest =>
      have hsame : room = room' := by omega
      have hblock := Event.Nested.blockOtherwise expression hbody (hsame ▸ hinverse)
      have hall := hrest.prepend (by omega) hblock
      simpa using hall

end Shape

namespace Builder

/-- Of each open block, innermost first, its name and whether it went on to its other
part. -/
def shape (b : Builder) : Shape :=
  b.frames.map fun f => (f.expression.path, f.inverse.isSome)

theorem shape_modify (b : Builder) (change : Program → Program) :
    (b.modify change).shape = b.shape := by
  unfold modify shape
  match b.frames with
  | [] => rfl
  | frame :: outer =>
    unfold Frame.modify
    match hinverse : frame.inverse with
    | none => simp [hinverse]
    | some inverse => simp [hinverse]

/-- **A builder takes what its shape takes**, and comes to the shape that its shape comes
to. -/
theorem take_shape (limit : Nat) (location : Location) (b : Builder) (event : Event) :
    Shape.take limit b.shape event = (b.add limit location event).toOption.map shape := by
  cases event with
  | text text => exact congrArg some (shape_modify b _).symm
  | mustache m => exact congrArg some (shape_modify b _).symm
  | opening expression =>
    unfold Shape.take add openBlock
    by_cases hlimit : limit ≤ b.frames.length
    · simp [shape, hlimit, Except.toOption]
    · simp [shape, hlimit, Except.toOption]
  | otherwise =>
    unfold add startInverse
    match hframes : b.frames with
    | [] => simp [shape, hframes, Shape.take, Except.toOption]
    | frame :: outer =>
      cases hinverse : frame.inverse with
      | none => simp [shape, hframes, hinverse, Shape.take, Except.toOption]
      | some inverse => simp [shape, hframes, hinverse, Shape.take, Except.toOption]
  | closing name =>
    unfold add closeBlock
    match hframes : b.frames with
    | [] => simp [shape, hframes, Shape.take, Except.toOption]
    | frame :: outer =>
      by_cases hname : frame.expression.path = name
      · simp only [hname, ne_eq, not_true_eq_false, if_false, Except.toOption, Option.map_some,
          addStatement, shape_modify]
        simp [shape, hframes, hname, Shape.take]
      · simp [shape, hframes, hname, Shape.take, Except.toOption]

theorem foldlM_take_shape (limit : Nat) (location : Location) :
    ∀ (events : List Event) (b : Builder),
      events.foldlM (Shape.take limit) b.shape =
        (events.foldlM (add limit location) b).toOption.map shape := by
  intro events
  induction events with
  | nil => intro b; rfl
  | cons event rest ih =>
    intro b
    rw [List.foldlM_cons, List.foldlM_cons, take_shape limit location]
    match hadd : b.add limit location event with
    | .error fault => rfl
    | .ok next => exact ih next

/-! ### Segments -/

end Builder

/-- What a window says, if it says something. -/
def Window.said (w : Window) : List Event :=
  match w.events with
  | .ok events => events
  | .error _ => []

/-- What a segment says, its text first. -/
def Segment.said (s : Segment) : List Event :=
  Event.ofText s.text ++ s.window.said

/-- A window of a form that is known, with an expression in it where one has to be. -/
def Window.Supported (w : Window) : Prop :=
  ∃ events, w.events = .ok events

namespace Builder

theorem addSegment_eq_ok_iff {limit : Nat} {b b' : Builder} {s : Segment} :
    b.addSegment limit s = .ok b' ↔
      s.window.Supported ∧ s.said.foldlM (add limit s.location) b = .ok b' := by
  unfold addSegment Segment.events Segment.said Window.said Window.Supported
  match s.window.events with
  | .error fault => simp [bind, Except.bind]
  | .ok events =>
    simp only [bind, Except.bind, Except.ok.injEq, exists_eq', true_and]
    match (Event.ofText s.text ++ events).foldlM (add limit s.location) b with
    | .error fault => simp
    | .ok next => simp

/-- **What a builder has after some segments** is what it had, and then what they say. -/
theorem row_foldlM_addSegment {limit : Nat} (segments : List Segment) {b b' : Builder}
    (h : segments.foldlM (addSegment limit) b = .ok b') :
    b'.row = (segments.flatMap Segment.said).foldl Event.push b.row := by
  rw [List.foldl_flatMap]
  refine foldlM_follows ?_ segments h
  intro b b' s hstep
  exact row_foldlM_add _ (addSegment_eq_ok_iff.mp hstep).2

/-- **Segments are accepted by their shape.** -/
theorem foldlM_addSegment_eq_ok_iff {limit : Nat} :
    ∀ (segments : List Segment) (b : Builder) (shape' : Shape),
      (∃ b', segments.foldlM (addSegment limit) b = .ok b' ∧ b'.shape = shape') ↔
        (∀ s ∈ segments, s.window.Supported) ∧
          (segments.flatMap Segment.said).foldlM (Shape.take limit) b.shape = some shape' := by
  intro segments
  induction segments with
  | nil =>
    intro b shape'
    simp [pure, Except.pure]
  | cons s rest ih =>
    intro b shape'
    rw [List.foldlM_cons, List.flatMap_cons, List.foldlM_append,
      foldlM_take_shape limit s.location]
    match hadd : b.addSegment limit s with
    | .ok next =>
      obtain ⟨hsupported, hnext⟩ := addSegment_eq_ok_iff.mp hadd
      simp only [hnext, bind, Except.bind, Except.toOption, Option.map_some, Option.bind_some]
      rw [ih next shape']
      simp [hsupported]
    | .error e =>
      refine ⟨?_, ?_⟩
      · rintro ⟨b', h, -⟩
        cases h
      · rintro ⟨hall, hfold⟩
        exfalso
        match hsaid : s.said.foldlM (add limit s.location) b with
        | .ok next =>
          have hok := addSegment_eq_ok_iff.mpr ⟨hall s (by simp), hsaid⟩
          rw [hadd] at hok
          cases hok
        | .error fault =>
          rw [hsaid] at hfold
          cases hfold

end Builder

/-- The search for a text fails exactly when it is nowhere. -/
theorem splitWhere_startsWith_eq_none_iff (sought : String) (text : List Char) :
    splitWhere (startsWith sought) text = none ↔ ¬ sought.toList <:+: text := by
  rw [splitWhere_eq_none_iff]
  refine ⟨?_, ?_⟩
  · rintro hall ⟨before, after, heq⟩
    have hfound := hall (sought.toList ++ after) ⟨before, by rw [← heq]; simp⟩
    rw [startsWith, List.isPrefixOf_iff_prefix.mpr (List.prefix_append _ _)] at hfound
    cases hfound
  · intro hnot after hsuffix
    by_contra hfound
    refine hnot (List.IsInfix.trans (List.IsPrefix.isInfix ?_) hsuffix.isInfix)
    exact List.isPrefixOf_iff_prefix.mp (by simpa [startsWith] using hfound)

/-! ### Sources

A gap loses the blanks at its start when the window before it asks for that, and those
at its end when the window after it does.  A cut keeps that as a mark on each segment;
here it is read off the windows themselves. -/

/-- A gap between two windows. -/
def trimGap (atStart atEnd : Bool) (gap : List Char) : List Char :=
  let text := if atStart then trimStart gap else gap
  if atEnd then trimEnd text else text

/-- What gaps and windows say from left to right, `rest` being the gap after the last
window; `trimmed` tells whether a window stands before that asks for the blanks after it
to be dropped. -/
def Event.ofPieces (trimmed : Bool) : List (List Char × Window) → List Char → List Event
  | [], rest => ofText (trimGap trimmed false rest)
  | (gap, window) :: more, rest =>
    ofText (trimGap trimmed window.trimLeft gap) ++
      (window.said ++ ofPieces window.trimRight more rest)

namespace Cut

/-- The gaps and windows of a cut source, from left to right. -/
def pieces (c : Cut) : List (List Char × Window) :=
  c.segments.map fun s => (s.gap, s.window)

/-- What a cut source says, from left to right. -/
def events (c : Cut) : List Event :=
  Event.ofPieces false c.pieces c.rest

/-- The marks of a cut are those of its windows. -/
theorem ofPieces_ofText (here : Location) (trimmed : Bool) (text : List Char) :
    Event.ofPieces trimmed (ofText here trimmed text).pieces (ofText here trimmed text).rest =
      (ofText here trimmed text).segments.flatMap Segment.said ++
        Event.ofText (ofText here trimmed text).text := by
  fun_induction ofText here trimmed text with
  | case1 => simp [pieces, Event.ofPieces, trimGap, Cut.text]
  | case2 => simp [pieces, Event.ofPieces, trimGap, Cut.text]
  | case3 here trimmed text gap opened hs opener window after hw later ih =>
    simp only [pieces, List.map_cons, Event.ofPieces, List.flatMap_cons, Segment.said,
      Segment.text, List.append_assoc] at ih ⊢
    rw [ih]
    rfl

section Equations

variable (here : Location) (trimmed : Bool) {text gap opened : List Char}

/-- Where nothing opens, a text is one gap. -/
theorem ofText_of_none (hs : splitWhere (startsWith openBraces) text = none) :
    ofText here trimmed text = ⟨[], text, trimmed, none⟩ := by
  unfold ofText
  split
  · rfl
  · rename_i hfound
    rw [hs] at hfound
    cases hfound

/-- A window that is not closed ends the cut. -/
theorem ofText_of_unclosed (hs : splitWhere (startsWith openBraces) text = some (gap, opened))
    (hw : Window.read? (opened.drop 2) = none) :
    ofText here trimmed text = ⟨[], text, trimmed, some (here.after gap)⟩ := by
  unfold ofText
  split
  · rename_i hfound
    rw [hs] at hfound
    cases hfound
  · rename_i hfound
    rw [hs] at hfound
    cases hfound
    split
    · rfl
    · rename_i hread
      rw [hw] at hread
      cases hread

/-- A window that is closed is the first segment, with the gap before it. -/
theorem ofText_of_read (hs : splitWhere (startsWith openBraces) text = some (gap, opened))
    {w : Window} {after : List Char} (hw : Window.read? (opened.drop 2) = some (w, after)) :
    ofText here trimmed text =
      { ofText ((here.after gap).after w.spelling) w.trimRight after with
        segments := ⟨gap, trimmed, w, here.after gap⟩ ::
          (ofText ((here.after gap).after w.spelling) w.trimRight after).segments } := by
  rw [ofText]
  split
  · rename_i hfound
    rw [hs] at hfound
    cases hfound
  · rename_i hfound
    rw [hs] at hfound
    cases hfound
    split
    · rename_i hread
      rw [hw] at hread
      cases hread
    · rename_i hread
      rw [hw] at hread
      cases hread
      rfl

end Equations

/-- A text without an opening delimiter is one gap. -/
theorem ofText_of_plain (here : Location) (trimmed : Bool) {text : List Char}
    (h : ¬ openBraces.toList <:+: text) : ofText here trimmed text = ⟨[], text, trimmed, none⟩ :=
  ofText_of_none here trimmed ((splitWhere_startsWith_eq_none_iff openBraces text).mpr h)

end Cut

/-! ### Programs -/

theorem Event.foldl_push_ofText (row : List Event) (content : List Char) :
    (ofText content).foldl push row = push row (.text (String.ofList content)) := by
  unfold ofText
  split
  · rename_i hempty
    rw [hempty]
    exact (push_text_empty row).symm
  · rfl

theorem Shape.foldlM_take_ofText (limit : Nat) (shape : Shape) (content : List Char) :
    (Event.ofText content).foldlM (take limit) shape = some shape := by
  unfold Event.ofText
  split <;> rfl

namespace Cut

theorem events_ofSource (source : String) :
    (ofSource source).events =
      (ofSource source).segments.flatMap Segment.said ++ Event.ofText (ofSource source).text :=
  ofPieces_ofText .start false source.toList

theorem program_eq_ok_iff {c : Cut} {limit : Nat} {program : Program} :
    c.program limit = .ok program ↔
      ∃ b, c.segments.foldlM (Builder.addSegment limit) {} = .ok b ∧ c.unclosed = none ∧
        b.frames = [] ∧ (b.addText (String.ofList c.text)).root.reverse = program := by
  unfold Cut.program
  match c.segments.foldlM (Builder.addSegment limit) {} with
  | .error e => simp [bind, Except.bind]
  | .ok b =>
    match c.unclosed with
    | some location => simp [bind, Except.bind]
    | none =>
      match hframes : b.frames with
      | [] =>
        simp [bind, Except.bind, Builder.finish, Builder.addText, Builder.modify, hframes]
      | frame :: outer =>
        simp [bind, Except.bind, Builder.finish, Builder.addText, Builder.modify, hframes]

/-- **A program, written out, is what its source says.** -/
theorem eventsOf_program {source : String} {limit : Nat} {program : Program}
    (h : (ofSource source).program limit = .ok program) :
    Statement.eventsOf program = Event.joined (ofSource source).events := by
  obtain ⟨b, hfold, -, hframes, rfl⟩ := program_eq_ok_iff.mp h
  have hrow : (b.addText (String.ofList (ofSource source).text)).row =
      (ofSource source).events.foldl Event.push [] := by
    rw [Builder.row_addText, Builder.row_foldlM_addSegment _ hfold, events_ofSource,
      List.foldl_append, Event.foldl_push_ofText]
    rfl
  rw [Event.joined, ← hrow]
  simp [Builder.row, Builder.addText, Builder.modify, hframes, Statement.row]

/-- A cut source is a program if all its windows are closed and known, and the shape of
what it says has nothing left open. -/
theorem exists_program_iff (source : String) (limit : Nat) :
    (∃ program, (ofSource source).program limit = .ok program) ↔
      (ofSource source).unclosed = none ∧
        (∀ s ∈ (ofSource source).segments, s.window.Supported) ∧
        (ofSource source).events.foldlM (Shape.take limit) [] = some [] := by
  have hsegments := @Builder.foldlM_addSegment_eq_ok_iff limit (ofSource source).segments {} []
  have hevents : (ofSource source).events.foldlM (Shape.take limit) [] = some [] ↔
      ((ofSource source).segments.flatMap Segment.said).foldlM (Shape.take limit) [] = some [] := by
    rw [events_ofSource, List.foldlM_append]
    simp [Shape.foldlM_take_ofText]
  rw [hevents]
  refine ⟨?_, ?_⟩
  · rintro ⟨program, h⟩
    obtain ⟨b, hfold, hclosed, hframes, -⟩ := program_eq_ok_iff.mp h
    exact ⟨hclosed, hsegments.mp ⟨b, hfold, by simp [Builder.shape, hframes]⟩⟩
  · rintro ⟨hclosed, hsupported, hshape⟩
    obtain ⟨b, hfold, hb⟩ := hsegments.mpr ⟨hsupported, hshape⟩
    have hframes : b.frames = [] := by simpa [Builder.shape] using hb
    exact ⟨_, program_eq_ok_iff.mpr ⟨b, hfold, hclosed, hframes, rfl⟩⟩

end Cut

end TemplateTree
