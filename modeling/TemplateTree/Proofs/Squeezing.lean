/-
Single spaces are enough.

To make each run of blanks in the body of a directive a single space leaves the program of a source
as it is, or what is wrong with it.  The source is cut as before, but for that one body.  Its window
says the same as before, or it closes a block under a name with a blank in it; and then it did
before, and no block has such a name, since the path of an expression is one word.

A quote in the body would be another matter, since blanks in a string are part of it.  And so is an
`else` with another blank after it than a space: it is a path, and becomes an `else` that has an
expression after it.
-/
import TemplateTree.Proofs.Origins
import TemplateTree.Proofs.Recut

namespace TemplateTree

/-- What is wrong, without the name that a closing gives. -/
def DirectiveFault.kind : DirectiveFault → DirectiveFault
  | .unexpectedClose _ => .unexpectedClose ""
  | .mismatchedClose opened _ => .mismatchedClose opened ""
  | fault => fault

/-- What is wrong, without its place and without the name that a closing gives. -/
def DirectiveError.kind (e : DirectiveError) : DirectiveFault :=
  e.fault.kind

/-- A name without blanks. -/
def IsUnblank (name : String) : Prop :=
  ∀ c ∈ name.toList, isBlank c = false

/-- If a block is opened, its name has no blanks. -/
def Event.Named : Event → Prop
  | .opening expression => IsUnblank expression.path
  | _ => True

theorem isUnblank_path {text : List Char} {e : Expression} (h : Expression.read text = .ok e) :
    IsUnblank e.path :=
  (Expression.isBare_path h).isBareValue.goesOn

/-- The blocks that a window opens have names without blanks. -/
theorem Window.named_of_events {w : Window} {events : List Event} (h : w.events = .ok events) :
    ∀ event ∈ events, event.Named := by
  cases says_of_events h with
  | opening hread => simpa [Event.Named] using isUnblank_path hread
  | inverted hread => simpa [Event.Named] using isUnblank_path hread
  | _ => simp [Event.Named]

namespace Builder

variable {limit : Nat} {location : Location} {b b' : Builder}

/-- A builder all of whose open blocks have names without blanks. -/
def Named (b : Builder) : Prop :=
  ∀ frame ∈ b.frames, IsUnblank frame.expression.path

theorem named_modify (h : b.Named) (change : Program → Program) : (b.modify change).Named := by
  obtain ⟨root, frames⟩ := b
  cases frames with
  | nil => exact h
  | cons frame outer =>
    obtain ⟨hframe, houter⟩ := List.forall_mem_cons.mp h
    refine List.forall_mem_cons.mpr ⟨?_, houter⟩
    unfold Frame.modify
    split <;> exact hframe

/-- Taking an event keeps the names of the blocks without blanks. -/
theorem named_add (hb : b.Named) {event : Event} (hevent : event.Named)
    (h : b.add limit location event = .ok b') : b'.Named := by
  cases adds_of_add h with
  | text text => exact named_modify hb _
  | mustache m => exact named_modify hb _
  | opening expression hroom => exact List.forall_mem_cons.mpr ⟨hevent, hb⟩
  | otherwise hframes hinverse =>
    rw [Named, hframes, List.forall_mem_cons] at hb
    exact List.forall_mem_cons.mpr hb
  | closing hframes =>
    rw [Named, hframes, List.forall_mem_cons] at hb
    have houter : Named { b with frames := _ } := hb.2
    exact named_modify houter _

theorem named_foldlM_add (events : List Event) (hevents : ∀ event ∈ events, event.Named)
    (hb : b.Named) (h : events.foldlM (add limit location) b = .ok b') : b'.Named := by
  induction events generalizing b with
  | nil => cases h; exact hb
  | cons event rest ih =>
    obtain ⟨next, hnext, hrest⟩ := exists_of_foldlM_cons h
    obtain ⟨hevent, hlater⟩ := List.forall_mem_cons.mp hevents
    exact ih hlater (named_add hb hevent hnext) hrest

theorem named_ofText (text : List Char) : ∀ event ∈ Event.ofText text, event.Named := by
  unfold Event.ofText
  split <;> simp [Event.Named]

theorem named_addSegment (hb : b.Named) {s : Segment} (h : b.addSegment limit s = .ok b') :
    b'.Named := by
  obtain ⟨⟨events, hevents⟩, hfold⟩ := addSegment_eq_ok_iff.mp h
  refine named_foldlM_add _ ?_ hb hfold
  have hsaid : s.window.said = events := by simp [Window.said, hevents]
  rw [Segment.said, hsaid]
  exact List.forall_mem_append.mpr ⟨named_ofText _, Window.named_of_events hevents⟩

/-- A block is never closed under a name with a blank, and it is wrong in the same way whatever
that name is. -/
theorem closeBlock_blank (hb : b.Named) {name name' : String}
    (hname : ∃ c ∈ name.toList, isBlank c = true) (hname' : ∃ c ∈ name'.toList, isBlank c = true) :
    (b.closeBlock name).mapError DirectiveFault.kind =
      (b.closeBlock name').mapError DirectiveFault.kind := by
  obtain ⟨root, frames⟩ := b
  cases frames with
  | nil => rfl
  | cons frame outer =>
    have hne : ∀ other : String, (∃ c ∈ other.toList, isBlank c = true) →
        frame.expression.path ≠ other := by
      rintro other ⟨c, hc, hblank⟩ rfl
      have hpath := hb frame (by simp) c hc
      simp [hblank] at hpath
    simp [closeBlock, hne name hname, hne name' hname', Except.mapError, DirectiveFault.kind]

/-- A text is always taken. -/
theorem exists_foldlM_ofText (limit : Nat) (location : Location) (hb : b.Named)
    (text : List Char) :
    ∃ next, (Event.ofText text).foldlM (add limit location) b = .ok next ∧ next.Named := by
  unfold Event.ofText
  split
  · exact ⟨b, rfl, hb⟩
  · exact ⟨b.addText (String.ofList text), rfl, named_modify hb _⟩

/-- A segment that closes a block comes to what the closing comes to. -/
theorem addSegment_closing {s : Segment} {name : String}
    (hevents : s.window.events = .ok [.closing name])
    (htext : (Event.ofText s.text).foldlM (add limit s.location) b = .ok b') :
    (b.addSegment limit s).mapError DirectiveError.kind =
      (b'.closeBlock name).mapError DirectiveFault.kind := by
  have hsaid : s.events = .ok (Event.ofText s.text ++ [.closing name]) := by
    rw [Segment.events, hevents]
    rfl
  have hfold : (Event.ofText s.text ++ [Event.closing name]).foldlM (add limit s.location) b =
      b'.closeBlock name := by
    rw [List.foldlM_append, htext]
    show b'.closeBlock name >>= pure = _
    exact bind_pure _
  rw [addSegment, hsaid]
  dsimp only
  rw [hfold]
  cases b'.closeBlock name <;> rfl

/-- **A segment whose window says what comes to the same is taken alike.** -/
theorem addSegment_alike (hb : b.Named) {s s' : Segment} (htext : s'.text = s.text)
    (hlocation : s'.location = s.location) (hsaid : SaidAlike s.window.events s'.window.events) :
    (b.addSegment limit s').mapError DirectiveError.kind =
      (b.addSegment limit s).mapError DirectiveError.kind := by
  cases hsaid with
  | same h => rw [addSegment, addSegment, Segment.events, Segment.events, htext, hlocation, h]
  | closing hevents hevents' hname hname' =>
    obtain ⟨next, hnext, hnamed⟩ := exists_foldlM_ofText limit s.location hb s.text
    have hnext' : (Event.ofText s'.text).foldlM (add limit s'.location) b = .ok next := by
      rw [htext, hlocation, hnext]
    rw [addSegment_closing hevents hnext, addSegment_closing hevents' hnext']
    exact closeBlock_blank hnamed hname' hname

end Builder

namespace Cut

variable {limit : Nat} {c : Cut} {before after : List Segment} {s s' : Segment}

/-- **A cut with one segment changed for one that says what comes to the same** has the same
program, or the same is wrong with it. -/
theorem program_alike (hsegments : c.segments = before ++ s :: after) (htext : s'.text = s.text)
    (hlocation : s'.location = s.location) (hsaid : SaidAlike s.window.events s'.window.events) :
    ((c.withSegments (before ++ s' :: after)).program limit).mapError DirectiveError.kind =
      (c.program limit).mapError DirectiveError.kind := by
  unfold program
  rw [hsegments]
  simp only [withSegments, List.foldlM_append, List.foldlM_cons, bind_assoc]
  cases hbefore : before.foldlM (Builder.addSegment limit) {} with
  | error e => rfl
  | ok b =>
    have hstart : Builder.Named {} := by simp [Builder.Named]
    have hb : b.Named :=
      foldlM_preserves (fun hb h => Builder.named_addSegment hb h) before hstart hbefore
    have hstep : (b.addSegment limit s').mapError DirectiveError.kind =
        ((b.addSegment limit s).map id).mapError DirectiveError.kind := by
      rw [Builder.addSegment_alike hb htext hlocation hsaid]
      cases b.addSegment limit s <;> rfl
    exact mapError_bind_congr hstep fun _ => rfl

end Cut

/-! ### Sources -/

/-- A segment with each run of blanks in the body of its window made a single space. -/
def Segment.squeezed (s : Segment) : Segment :=
  { s with window := s.window.withBody (squeeze s.window.body) }

/-- A squeezed body has no blank after an `else` but a space. -/
theorem spacedElse_squeeze (body : List Char) : SpacedElse (trim (squeeze body)) := by
  intro c hpre hblank
  have hmem : c ∈ squeeze body := by
    refine (trimStart_suffix _).subset ((trimEnd_isPrefixOf _).subset (hpre.subset ?_))
    simp
  exact eq_space_of_mem_squeeze hmem hblank

theorem Cut.mapError_kind_verdict (limit : Nat) (c : Cut) :
    (c.verdict limit).mapError DirectiveFault.kind =
      (c.program limit).mapError DirectiveError.kind := by
  rw [Cut.verdict]
  cases c.program limit <;> rfl

/-- **Single spaces between words are enough.**  Of one window of a source, whose body has no
quotes, each run of blanks in the body is made a single space.  Then the program of the source is
the same, or the same is wrong with it, if it is not the blank after an `else` that becomes a
space. -/
theorem parseDirectives_squeezed {source : String} {before after : List Segment} {s : Segment}
    (hcut : (Cut.ofSource source).segments = before ++ s :: after)
    (hquote : Unquoted s.window.body)
    (helse : s.window.triple = false → SpacedElse (trim s.window.body)) (limit : Nat) :
    (parseDirectives (String.ofList
        ((Cut.ofSource source).withSegments (before ++ s.squeezed :: after)).spelling)
        limit).mapError DirectiveError.kind =
      (parseDirectives source limit).mapError DirectiveError.kind := by
  let changed := (Cut.ofSource source).withSegments (before ++ s.squeezed :: after)
  have hspaced := respaced_squeeze s.window.body
  have hmem : s ∈ (Cut.ofSource source).segments := by
    rw [hcut]
    simp
  have hreads : s.squeezed.window.Reads :=
    Window.reads_withBody (Cut.reads_of_mem hmem) hspaced
  have hrecut : (Cut.ofSource (String.ofList changed.spelling)).unplaced = changed.unplaced := by
    rw [Cut.ofSource, String.toList_ofList]
    exact Cut.unplaced_ofText_change before hcut rfl rfl hreads rfl
  have hsaid : SaidAlike s.window.events s.squeezed.window.events :=
    Window.saidAlike_events hquote
      (fun htriple => ⟨helse htriple, spacedElse_squeeze s.window.body⟩) hspaced
  have halike : (changed.program limit).mapError DirectiveError.kind =
      ((Cut.ofSource source).program limit).mapError DirectiveError.kind :=
    Cut.program_alike hcut rfl rfl hsaid
  rw [parseDirectives, parseDirectives, ← halike, ← Cut.mapError_kind_verdict,
    ← Cut.mapError_kind_verdict, ← Cut.verdict_unplaced, hrecut, Cut.verdict_unplaced]

/-- The opening of a block, with a tab and a line feed in it. -/
theorem parseDirectives_squeezed_of_block :
    ∃ source before s after, (Cut.ofSource source).segments = before ++ s :: after ∧
      Unquoted s.window.body ∧ (s.window.triple = false → SpacedElse (trim s.window.body)) ∧
      s.squeezed.window.body = "#if a b".toList ∧
      (parseDirectives (String.ofList
          ((Cut.ofSource source).withSegments (before ++ s.squeezed :: after)).spelling)
          maxNesting).mapError DirectiveError.kind =
        (parseDirectives source maxNesting).mapError DirectiveError.kind := by
  have hcut : (Cut.ofSource "\x7b\x7b#if a\t\n b\x7d\x7d\x7b\x7b/if\x7d\x7d").segments =
      [] ++ ⟨[], false, ⟨false, false, "#if a\t\n b".toList, false⟩, .start⟩ ::
        [⟨[], false, ⟨false, false, "/if".toList, false⟩, ⟨2, 5, 13⟩⟩] := by
    cbv
  have hquote : Unquoted "#if a\t\n b".toList := by simp [Unquoted, Expression.isQuote]
  have helse : SpacedElse (trim "#if a\t\n b".toList) := by
    rintro c ⟨rest, hrest⟩
    cases hrest
  refine ⟨_, _, _, _, hcut, hquote, fun _ => helse, by decide, ?_⟩
  exact parseDirectives_squeezed hcut hquote (fun _ => helse) maxNesting

/-- A tab after an `else` matters: before it stands a path, and before a space an `else` that has
an expression after it. -/
theorem not_forall_parseDirectives_squeezed :
    ¬ ∀ (source : String) (before after : List Segment) (s : Segment),
      (Cut.ofSource source).segments = before ++ s :: after → Unquoted s.window.body →
        ∀ limit, (parseDirectives (String.ofList
            ((Cut.ofSource source).withSegments (before ++ s.squeezed :: after)).spelling)
            limit).mapError DirectiveError.kind =
          (parseDirectives source limit).mapError DirectiveError.kind := by
  intro h
  let s : Segment := ⟨[], false, ⟨false, false, "else\tx".toList, false⟩, .start⟩
  have hcut : Cut.ofSource "\x7b\x7belse\tx\x7d\x7d" = ⟨[s], [], false, none⟩ := by
    cbv
  have hsame := h _ [] [] s (by rw [hcut]; rfl) (by simp [s, Unquoted, Expression.isQuote])
    maxNesting
  have hspelling : (Cut.withSegments ⟨[s], [], false, none⟩ ([] ++ s.squeezed :: [])).spelling =
      "\x7b\x7belse x\x7d\x7d".toList := by
    decide
  have htab : parseDirectives "\x7b\x7belse\tx\x7d\x7d" =
      .ok [.mustache ⟨⟨"else", [.path "x"], []⟩, true⟩] := by
    cbv
  have hspace : parseDirectives "\x7b\x7belse x\x7d\x7d" = .error ⟨.chainedElse, .start⟩ := by
    cbv
  rw [hcut, hspelling, String.ofList_toList, htab, hspace] at hsame
  cases hsame

end TemplateTree
