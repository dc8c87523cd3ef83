/-
Places are only for errors.

A cut keeps where each window opens, and a builder where each open block does, so that an error
can say it.  Nothing else reads them.  Forget all of them, and every step goes on as it did: the
same program in the end, or the same fault, with only its place lost.

So a source that is cut into the same pieces at other places has the same verdict.
-/
import TemplateTree.Proofs.Grammar

namespace TemplateTree

/-- What goes on alike after steps that came to the same, comes to the same. -/
theorem mapError_bind_congr {α β γ ε ε' : Type} {fault : ε → ε'} {first : Except ε α}
    {first' : Except ε β} {forget : β → α}
    (h : first.mapError fault = (first'.map forget).mapError fault) {next : α → Except ε γ}
    {next' : β → Except ε γ}
    (hnext : ∀ b, (next (forget b)).mapError fault = (next' b).mapError fault) :
    (first >>= next).mapError fault = (first' >>= next').mapError fault := by
  match first, first', h with
  | .error e, .error e', h => exact congrArg Except.error (Except.error.inj h)
  | .ok a, .ok b, h =>
    obtain rfl : a = forget b := Except.ok.inj h
    exact hnext b

/-- The block without its place. -/
def Frame.unplaced (f : Frame) : Frame :=
  { f with location := .start }

/-- The segment without its place. -/
def Segment.unplaced (s : Segment) : Segment :=
  { s with location := .start }

namespace Builder

variable {limit : Nat}

/-- The builder without the places of its blocks. -/
def unplaced (b : Builder) : Builder :=
  { b with frames := b.frames.map Frame.unplaced }

theorem unplaced_modify (b : Builder) (change : Program → Program) :
    (b.modify change).unplaced = b.unplaced.modify change := by
  unfold modify unplaced
  match b.frames with
  | [] => rfl
  | frame :: outer =>
    have hframe : (frame.modify change).unplaced = frame.unplaced.modify change := by
      obtain ⟨expression, location, body, inverse⟩ := frame
      cases inverse <;> rfl
    simp [hframe]

/-- **An event is taken without regard to places.** -/
theorem add_unplaced (location : Location) (b : Builder) (event : Event) :
    b.unplaced.add limit .start event = (b.add limit location event).map unplaced := by
  cases event with
  | text text => simp only [add, addText, Except.map, unplaced_modify]
  | mustache m => simp only [add, addStatement, Except.map, unplaced_modify]
  | opening expression =>
    simp only [add, openBlock, unplaced, List.length_map]
    split <;> rfl
  | otherwise =>
    obtain ⟨root, frames⟩ := b
    cases frames with
    | nil => rfl
    | cons frame outer =>
      obtain ⟨expression, location, body, inverse⟩ := frame
      cases inverse <;> rfl
  | closing name =>
    obtain ⟨root, frames⟩ := b
    cases frames with
    | nil => rfl
    | cons frame outer =>
      by_cases hname : frame.expression.path = name
      · have hadd := unplaced_modify ⟨root, outer⟩ (frame.toStatement :: ·)
        simpa [add, closeBlock, unplaced, Frame.unplaced, hname, Except.map, addStatement,
          Frame.toStatement] using hadd.symm
      · simp [add, closeBlock, unplaced, Frame.unplaced, hname, Except.map]

theorem foldlM_add_unplaced (location : Location) (events : List Event) (b : Builder) :
    events.foldlM (add limit .start) b.unplaced =
      (events.foldlM (add limit location) b).map unplaced := by
  induction events generalizing b with
  | nil => rfl
  | cons event rest ih =>
    rw [List.foldlM_cons, List.foldlM_cons, add_unplaced location]
    cases b.add limit location event with
    | error fault => rfl
    | ok next => exact ih next

/-- A segment is taken without regard to its place. -/
theorem addSegment_unplaced (b : Builder) (s : Segment) :
    (b.unplaced.addSegment limit s.unplaced).mapError (·.fault) =
      ((b.addSegment limit s).map unplaced).mapError (·.fault) := by
  have hevents : s.unplaced.events = s.events := rfl
  unfold addSegment
  rw [hevents]
  cases s.events with
  | error fault => rfl
  | ok events =>
    simp only [Segment.unplaced, foldlM_add_unplaced s.location]
    cases events.foldlM (add limit s.location) b <;> rfl

theorem foldlM_addSegment_unplaced (segments : List Segment) (b : Builder) :
    ((segments.map Segment.unplaced).foldlM (addSegment limit) b.unplaced).mapError (·.fault) =
      ((segments.foldlM (addSegment limit) b).map unplaced).mapError (·.fault) := by
  induction segments generalizing b with
  | nil => rfl
  | cons s rest ih =>
    have hmap : ((s :: rest).foldlM (addSegment limit) b).map unplaced =
        b.addSegment limit s >>= fun next =>
          (rest.foldlM (addSegment limit) next).map unplaced := by
      rw [List.foldlM_cons]
      cases b.addSegment limit s <;> rfl
    rw [hmap, List.map_cons, List.foldlM_cons]
    exact mapError_bind_congr (addSegment_unplaced b s) ih

theorem finish_unplaced (b : Builder) :
    b.unplaced.finish.mapError (·.fault) = b.finish.mapError (·.fault) := by
  obtain ⟨root, frames⟩ := b
  cases frames <;> rfl

end Builder

namespace Cut

/-- The cut without the places of its windows. -/
def unplaced (c : Cut) : Cut :=
  { c with
    segments := c.segments.map Segment.unplaced
    unclosed := c.unclosed.map fun _ => .start }

/-- What comes of a cut: a program, or what is wrong. -/
def verdict (limit : Nat) (c : Cut) : Except DirectiveFault Program :=
  (c.program limit).mapError (·.fault)

/-- **The verdict has nothing to do with places.** -/
theorem verdict_unplaced (limit : Nat) (c : Cut) : c.unplaced.verdict limit = c.verdict limit := by
  have hfold := @Builder.foldlM_addSegment_unplaced limit c.segments {}
  unfold verdict program
  refine mapError_bind_congr hfold fun b => ?_
  cases hunclosed : c.unclosed with
  | some location => simp [unplaced, hunclosed, Except.mapError]
  | none =>
    have hnone : c.unplaced.unclosed = none := by simp [unplaced, hunclosed]
    have htext : b.unplaced.addText (String.ofList c.unplaced.text) =
        (b.addText (String.ofList c.text)).unplaced := (b.unplaced_modify _).symm
    simp only [hnone, htext, Builder.finish_unplaced]

/-- A text is cut into the same pieces wherever it begins. -/
theorem unplaced_ofText (here there : Location) (trimmed : Bool) (text : List Char) :
    (ofText here trimmed text).unplaced = (ofText there trimmed text).unplaced := by
  fun_induction ofText here trimmed text generalizing there with
  | case1 here trimmed text hs => rw [ofText_of_none there trimmed hs]
  | case2 here trimmed text gap opened hs opener hw =>
    rw [ofText_of_unclosed there trimmed hs hw]
    rfl
  | case3 here trimmed text gap opened hs opener window after hw later ih =>
    rw [ofText_of_read there trimmed hs hw]
    have hlater := ih ((there.after gap).after window.spelling)
    simp only [unplaced, Cut.mk.injEq, List.map_cons, List.cons.injEq] at hlater ⊢
    exact ⟨⟨rfl, hlater.1⟩, hlater.2⟩

end Cut

end TemplateTree
