/-
An error names the first directive that is wrong.

Windows are taken one after another, so what comes after one can have no part in whether it is
taken.  Two facts make this precise.  A source is cut in the same way up to the end of a window,
whatever follows it there: `Cut.ofText_prefix`.  And a builder that has failed has failed for good.
So the text before the directive that an error names is in order by itself, but for blocks that are
still open, and with the directive it fails in the same way however it goes on.

An error about a block that is never closed is about none of the windows.  All of them were taken,
and it names the opening of the innermost block.  Which one that is can be told by counting: from
there on there are always more blocks open than before it, and at the end there is one more.
-/
import TemplateTree.Proofs.Balance
import TemplateTree.Proofs.BlockLimit
import TemplateTree.Proofs.Walk

namespace TemplateTree

/-! ### Cuts of the beginning of a source -/

namespace Cut

/-- The text that segments are cut from. -/
def textOf (segments : List Segment) : List Char :=
  segments.flatMap fun s => s.gap ++ s.window.spelling

@[simp] theorem textOf_nil : textOf [] = [] := rfl

@[simp] theorem textOf_cons (s : Segment) (rest : List Segment) :
    textOf (s :: rest) = s.gap ++ (s.window.spelling ++ textOf rest) := by
  simp [textOf]

@[simp] theorem textOf_append (first second : List Segment) :
    textOf (first ++ second) = textOf first ++ textOf second := by
  simp [textOf]

/-- A cut with segments before it. -/
def prepend (segments : List Segment) (c : Cut) : Cut :=
  c.withSegments (segments ++ c.segments)

variable {here : Location} {trimmed : Bool} {text : List Char}

/-- **A source is cut alike up to the end of a window**, whatever comes after it. -/
theorem ofText_prefix (first : List Segment) {later : List Segment}
    (h : (ofText here trimmed text).segments = first ++ later) (tail : List Char) :
    ∃ here' trimmed', ofText here trimmed (textOf first ++ tail) =
      prepend first (ofText here' trimmed' tail) := by
  fun_induction ofText here trimmed text generalizing first with
  | case1 here trimmed text hs =>
    obtain ⟨rfl, -⟩ := List.append_eq_nil_iff.mp h.symm
    exact ⟨here, trimmed, rfl⟩
  | case2 here trimmed text gap opened hs opener hw =>
    obtain ⟨rfl, -⟩ := List.append_eq_nil_iff.mp h.symm
    exact ⟨here, trimmed, rfl⟩
  | case3 here trimmed text gap opened hs opener window after hw left ih =>
    cases first with
    | nil => exact ⟨here, trimmed, rfl⟩
    | cons s more =>
      obtain ⟨rfl, hmore⟩ := List.cons.inj h
      obtain ⟨here', trimmed', hcut⟩ := ih more hmore
      refine ⟨here', trimmed', ?_⟩
      rw [textOf_cons, List.append_assoc, List.append_assoc,
        ofText_of_read here trimmed (splitWhere_gap hs window _) (Window.reads_of_read? hw _), hcut]
      rfl

/-- No directive opens in a gap. -/
theorem splitWhere_gap_eq_none {gap opened : List Char}
    (hs : splitWhere (startsWith openBraces) text = some (gap, opened)) :
    splitWhere (startsWith openBraces) gap = none := by
  refine splitWhere_eq_none_iff.mpr fun part hpart => Bool.eq_false_iff.mpr fun hstarts => ?_
  have hne : part ≠ [] := by
    rintro rfl
    cases hstarts
  have hlonger : startsWith openBraces (part ++ opened) = true :=
    List.isPrefixOf_iff_prefix.mpr
      ((List.isPrefixOf_iff_prefix.mp hstarts).trans (List.prefix_append _ _))
  rw [not_found_of_splitWhere hs part hne hpart] at hlonger
  cases hlonger

theorem splitWhere_gap_of_mem {s : Segment} (h : s ∈ (ofText here trimmed text).segments) :
    splitWhere (startsWith openBraces) s.gap = none := by
  fun_induction ofText here trimmed text with
  | case1 => cases h
  | case2 => cases h
  | case3 here trimmed text gap opened hs opener window left hw later ih =>
    rcases List.mem_cons.mp h with rfl | hlater
    · exact splitWhere_gap_eq_none hs
    · exact ih hlater

/-- Where a window opens that is never closed. -/
theorem exists_of_unclosed {location : Location}
    (h : (ofText here trimmed text).unclosed = some location) :
    ∃ gap opened, (ofText here trimmed text).rest = gap ++ (openBraces.toList ++ opened) ∧
      splitWhere (startsWith openBraces) gap = none ∧ Window.read? opened = none ∧
      location = here.after (textOf (ofText here trimmed text).segments ++ gap) := by
  fun_induction ofText here trimmed text with
  | case1 => cases h
  | case2 here trimmed text gap opened hs opener hw =>
    have hlocation : here.after gap = location := Option.some.inj h
    refine ⟨gap, opened.drop 2, ?_, splitWhere_gap_eq_none hs, hw, hlocation.symm⟩
    have hopened : openBraces.toList ++ opened.drop 2 = opened :=
      Window.drop_of_startsWith (splitWhere_found hs)
    rw [hopened, splitWhere_append hs]
  | case3 here trimmed text gap opened hs opener window after hw later ih =>
    obtain ⟨last, found, hrest, hgap, hread, hlocation⟩ := ih h
    refine ⟨last, found, hrest, hgap, hread, ?_⟩
    rw [hlocation]
    simp only [textOf_cons, List.append_assoc, Location.after_append]
    rfl

end Cut

/-! ### What can be wrong with a window -/

/-- Is it about something that does not end? -/
def DirectiveFault.isUnclosed : DirectiveFault → Bool
  | .unclosedMustache | .unclosedBlock _ => true
  | .expression _ | .chainedElse | .partialDirective | .unexpectedClose _ | .mismatchedClose _ _
  | .unexpectedElse | .nestingTooDeep _ => false

theorem Expression.isUnclosed_of_ofBody {body : List Char} {fault : DirectiveFault}
    (h : Expression.ofBody body = .error fault) : fault.isUnclosed = false := by
  unfold Expression.ofBody at h
  split at h
  · cases h
  · cases h
    rfl

theorem Window.isUnclosed_of_events {w : Window} {fault : DirectiveFault}
    (h : w.events = .error fault) : fault.isUnclosed = false := by
  have hread : ∀ {body : List Char} {next : Expression → List Event},
      (do let expression ← Expression.ofBody body
          .ok (next expression) : Except DirectiveFault (List Event)) = .error fault →
        fault.isUnclosed = false := by
    intro body next hbind
    rcases exists_of_bind_error hbind with hbody | ⟨a, -, hnext⟩
    · exact Expression.isUnclosed_of_ofBody hbody
    · cases hnext
  unfold Window.events at h
  split at h
  · exact hread h
  · unfold plainEvents at h
    split at h
    · cases h
    · exact hread h
    · split at h
      · cases h
      · exact hread h
    · cases h
    · cases h
      rfl
    · exact hread h
    · split at h
      · cases h
      · split at h
        · cases h
          rfl
        · exact hread h

namespace Builder

variable {limit : Nat} {b b' : Builder} {s : Segment} {location : Location} {event : Event}

theorem isUnclosed_of_add {fault : DirectiveFault} (h : b.add limit location event = .error fault) :
    fault.isUnclosed = false := by
  cases event with
  | text content | mustache m => cases h
  | opening expression =>
    simp only [add, openBlock] at h
    split at h
    · cases h
      rfl
    · cases h
  | otherwise =>
    simp only [add, startInverse] at h
    split at h
    · cases h
      rfl
    · split at h
      · cases h
        rfl
      · cases h
  | closing name =>
    simp only [add, closeBlock] at h
    split at h
    · cases h
      rfl
    · split at h
      · cases h
        rfl
      · cases h

/-- **A segment that is not taken is at fault itself**, and its place is the place of the error. -/
theorem error_of_addSegment {e : DirectiveError} (h : b.addSegment limit s = .error e) :
    e.location = s.location ∧ e.fault.isUnclosed = false := by
  unfold addSegment at h
  split at h
  · rename_i hevents
    cases h
    refine ⟨rfl, ?_⟩
    rcases exists_of_bind_error hevents with hwindow | ⟨events, -, hnext⟩
    · exact Window.isUnclosed_of_events hwindow
    · cases hnext
  · split at h
    · rename_i hfold
      cases h
      obtain ⟨before, event, after, b', -, -, hadd⟩ := exists_of_foldlM_error _ hfold
      exact ⟨rfl, isUnclosed_of_add hadd⟩
    · cases h

end Builder

/-! ### The beginning of a source -/

/-- A source in which all windows are in order, and no more can be wrong than that blocks are left
open. -/
def Accepts (limit : Nat) (source : List Char) : Prop :=
  ∀ e, parseDirectives (String.ofList source) limit = .error e →
    ∃ name, e.fault = .unclosedBlock name

namespace Cut

variable {limit : Nat} {text : List Char} {first later : List Segment} {b : Builder}

theorem build_prepend (limit : Nat) (first : List Segment) (c : Cut) (b : Builder) :
    (prepend first c).build limit b =
      first.foldlM (Builder.addSegment limit) b >>= c.build limit := by
  unfold build
  rw [prepend, withSegments, List.foldlM_append, bind_assoc]
  rfl

theorem parseDirectives_ofList (limit : Nat) (text : List Char) :
    parseDirectives (String.ofList text) limit =
      (ofText .start false text).build limit {} >>= Builder.finish := by
  rw [parseDirectives, program_eq_build, ofSource, String.toList_ofList]

/-- **The text before a window is in order** if the windows before it are taken. -/
theorem accepts_of_foldlM (hcut : (ofText .start false text).segments = first ++ later)
    (hfold : first.foldlM (Builder.addSegment limit) {} = .ok b) {gap : List Char}
    (hgap : splitWhere (startsWith openBraces) gap = none) : Accepts limit (textOf first ++ gap) := by
  intro e h
  obtain ⟨here, trimmed, hprefix⟩ := ofText_prefix first hcut gap
  rw [parseDirectives_ofList, hprefix, build_prepend, hfold, ofText_of_none here trimmed hgap] at h
  replace h : (b.addText _).finish = .error e := h
  unfold Builder.finish at h
  split at h
  · cases h
  · cases h
    exact ⟨_, rfl⟩

/-- **A window that is not taken is not taken whatever comes after it.** -/
theorem fails_of_addSegment {s : Segment} {e : DirectiveError}
    (hcut : (ofText .start false text).segments = first ++ s :: later)
    (hfold : first.foldlM (Builder.addSegment limit) {} = .ok b)
    (hadd : b.addSegment limit s = .error e) (tail : List Char) :
    parseDirectives (String.ofList (textOf first ++ s.gap ++ (s.window.spelling ++ tail))) limit =
      .error e := by
  obtain ⟨here, trimmed, hprefix⟩ := ofText_prefix (first ++ [s])
    (hcut.trans (List.append_cons first s later)) tail
  have htext : textOf first ++ s.gap ++ (s.window.spelling ++ tail) =
      textOf (first ++ [s]) ++ tail := by
    simp
  have hfails : (first ++ [s]).foldlM (Builder.addSegment limit) {} = .error e := by
    rw [List.foldlM_append, hfold]
    show [s].foldlM (Builder.addSegment limit) b = _
    rw [List.foldlM_cons, hadd]
    rfl
  rw [parseDirectives_ofList, htext, hprefix, build_prepend, hfails]
  rfl

end Cut

/-! ### Blocks that stay open -/

namespace Builder

/-- The blocks that are open, innermost first: the expression and the place of each. -/
def blocks (b : Builder) : List (Expression × Location) :=
  b.frames.map fun frame => (frame.expression, frame.location)

theorem blocks_modify (b : Builder) (change : Program → Program) :
    (b.modify change).blocks = b.blocks := by
  obtain ⟨root, frames⟩ := b
  cases frames with
  | nil => rfl
  | cons frame outer =>
    obtain ⟨expression, location, body, inverse⟩ := frame
    cases inverse <;> rfl

end Builder

/-- The blocks that are open after an event of a window at `location`. -/
def Event.blocksAfter (location : Location) (blocks : List (Expression × Location)) :
    Event → List (Expression × Location)
  | .opening expression => (expression, location) :: blocks
  | .closing _ => blocks.tail
  | .text _ | .mustache _ | .otherwise => blocks

/-- The blocks that are open after a segment, by what its window says. -/
inductive Segment.Leaves (s : Segment) (blocks : List (Expression × Location)) :
    List (Expression × Location) → Prop
  | opens {expression : Expression} {more : List Event} (hopens : s.window.opens = true)
    (hevents : s.window.events = .ok (.opening expression :: more)) :
    Leaves s blocks ((expression, s.location) :: blocks)
  | closes (hopens : s.window.opens = false) (hcloses : s.window.closes = true) :
    Leaves s blocks blocks.tail
  | neither (hopens : s.window.opens = false) (hcloses : s.window.closes = false) :
    Leaves s blocks blocks

namespace Builder

variable {limit : Nat} {b b' : Builder} {s : Segment} {location : Location} {event : Event}

theorem blocks_add (h : b.add limit location event = .ok b') :
    b'.blocks = event.blocksAfter location b.blocks := by
  cases adds_of_add h with
  | text text => exact blocks_modify b _
  | mustache m => exact blocks_modify b _
  | opening expression hroom => rfl
  | otherwise hframes hinverse => simp [blocks, hframes, Event.blocksAfter]
  | closing hframes =>
    rw [addStatement, blocks_modify]
    simp [blocks, hframes, Event.blocksAfter]

/-- **Only the window of a segment counts for the blocks that it leaves open.** -/
theorem leaves_of_addSegment (h : b.addSegment limit s = .ok b') :
    s.Leaves b.blocks b'.blocks := by
  have hsame : ∀ {event : Event}, event.isBracket = false → ∀ blocks,
      event.blocksAfter s.location blocks = blocks := by
    intro event hevent blocks
    match event, hevent with
    | .text _, _ | .mustache _, _ | .otherwise, _ => rfl
  obtain ⟨events, hevents, hbrackets, hblocks⟩ := follows_addSegment blocks_add hsame h
  rw [hblocks]
  cases hbrackets with
  | opens expression hopens hmore =>
    rw [List.foldl_cons, Event.foldl_of_not_isBracket hsame hmore]
    exact .opens hopens hevents
  | closes name hopens hcloses => exact .closes hopens hcloses
  | neither hopens hcloses hinner =>
    rw [Event.foldl_of_not_isBracket hsame hinner]
    exact .neither hopens hcloses

theorem length_blocks (b : Builder) : b.blocks.length = b.frames.length := by
  simp [blocks]

end Builder

/-- The segment after `first` opens a block that is not closed in `later`: there are always more
open than before it. -/
structure StaysOpen (first : List Segment) (s : Segment) (later : List Segment) : Prop where
  opens : s.window.opens = true
  stays : ∀ part, part <+: later → openBlocks first < openBlocks (first ++ s :: part)

/-- It is the innermost of those that are open in the end. -/
structure InnermostOpen (first : List Segment) (s : Segment) (later : List Segment) : Prop extends
    StaysOpen first s later where
  innermost : openBlocks (first ++ s :: later) = openBlocks first + 1

/-- A block is open after some segments, inside of `depth` others. -/
def OpenAfter (segments : List Segment) (depth : Nat) (block : Expression × Location) : Prop :=
  ∃ first s later, segments = first ++ s :: later ∧ StaysOpen first s later ∧
    openBlocks first = depth ∧ s.location = block.2 ∧
    ∃ more, s.window.events = .ok (.opening block.1 :: more)

/-- A block that was open is open still if there are more open than it has around it. -/
theorem OpenAfter.concat {segments : List Segment} {t : Segment} {depth : Nat}
    {block : Expression × Location} (h : OpenAfter segments depth block)
    (hcount : depth < openBlocks (segments ++ [t])) : OpenAfter (segments ++ [t]) depth block := by
  obtain ⟨first, s, later, rfl, ⟨hopens, hstays⟩, rfl, hblock⟩ := h
  rw [List.append_assoc, List.cons_append] at hcount ⊢
  refine ⟨first, s, later ++ [t], rfl, ⟨hopens, fun part hpart => ?_⟩, rfl, hblock⟩
  rcases List.prefix_concat_iff.mp hpart with rfl | hearlier
  · exact hcount
  · exact hstays part hearlier

/-- **Every block that is open was opened by a window, and has stayed open since.** -/
theorem openAfter_of_foldlM {limit : Nat} (segments : List Segment) :
    ∀ {b : Builder}, segments.foldlM (Builder.addSegment limit) {} = .ok b →
      ∀ above {below block}, b.blocks = above ++ block :: below →
        OpenAfter segments below.length block := by
  induction segments using List.reverseRecOn with
  | nil =>
    intro b h above below block hblocks
    cases h
    simp [Builder.blocks] at hblocks
  | append_singleton segments t ih =>
    intro b' h above below block hblocks
    have hcount : below.length < openBlocks (segments ++ [t]) := by
      rw [← Builder.length_frames_eq_openBlocks h, ← Builder.length_blocks, hblocks]
      simp
      omega
    rw [List.foldlM_append] at h
    obtain ⟨b, hfold, hlast⟩ := exists_of_bind_ok h
    obtain ⟨next, hadd, hdone⟩ := exists_of_foldlM_cons hlast
    cases hdone
    have hleaves := Builder.leaves_of_addSegment hadd
    rw [hblocks] at hleaves
    generalize hafter : above ++ block :: below = after at hleaves
    -- the block was open before, unless it is the one that opens here
    cases hleaves with
    | opens hopens hevents =>
      cases above with
      | nil =>
        obtain ⟨rfl, rfl⟩ := List.cons.inj hafter
        have hdepth := Builder.length_frames_eq_openBlocks hfold
        rw [← Builder.length_blocks] at hdepth
        refine ⟨segments, t, [], rfl, ⟨hopens, fun part hpart => ?_⟩, hdepth.symm, rfl, _, hevents⟩
        rw [List.prefix_nil.mp hpart, ← hdepth]
        exact hcount
      | cons new above =>
        exact (ih hfold above (List.cons.inj hafter).2.symm).concat hcount
    | closes hopens hcloses =>
      have hne : b.blocks ≠ [] := by
        intro hnil
        rw [hnil] at hafter
        simp at hafter
      obtain ⟨closed, outer, hbefore⟩ := List.exists_cons_of_ne_nil hne
      rw [hbefore, List.tail_cons] at hafter
      rw [← hafter] at hbefore
      exact (ih hfold (closed :: above) hbefore).concat hcount
    | neither hopens hcloses => exact (ih hfold above hafter.symm).concat hcount

/-- The first of the open blocks is the innermost one. -/
theorem exists_innermostOpen {limit : Nat} {segments : List Segment} {b : Builder}
    (h : segments.foldlM (Builder.addSegment limit) {} = .ok b) {block : Expression × Location}
    {outer : List (Expression × Location)} (hblocks : b.blocks = block :: outer) :
    ∃ first s later, segments = first ++ s :: later ∧ InnermostOpen first s later ∧
      s.location = block.2 ∧ ∃ more, s.window.events = .ok (.opening block.1 :: more) := by
  have hcount := Builder.length_frames_eq_openBlocks h
  rw [← Builder.length_blocks, hblocks, List.length_cons] at hcount
  obtain ⟨first, s, later, rfl, hstays, hdepth, hlocation, hevents⟩ :=
    openAfter_of_foldlM segments h [] hblocks
  refine ⟨first, s, later, rfl, ⟨hstays, ?_⟩, hlocation, hevents⟩
  rw [← hcount, hdepth]

/-! ### What an error is about -/

/-- Every window of a source is closed, and the source is in order up to the end of each. -/
def AllAccepted (limit : Nat) (source : String) : Prop :=
  (Cut.ofSource source).unclosed = none ∧
    ∀ first later, (Cut.ofSource source).segments = first ++ later →
      Accepts limit (Cut.textOf first)

/-- What an error says of a source with a directive that opens after `before`, with `opened` after
its braces. -/
inductive Blames (limit : Nat) (source : String) (before opened : List Char) :
    DirectiveError → Prop
  /-- A block is never closed.  All windows are in order, and this one opened the innermost block
  that is open. -/
  | block {first later : List Segment} {s : Segment} {expression : Expression} {more : List Event}
    {location : Location} (haccepted : AllAccepted limit source)
    (hsegments : (Cut.ofSource source).segments = first ++ s :: later)
    (hinnermost : InnermostOpen first s later) (hbefore : before = Cut.textOf first ++ s.gap)
    (hevents : s.window.events = .ok (.opening expression :: more)) :
    Blames limit source before opened ⟨.unclosedBlock expression.path, location⟩
  /-- A window is never closed, and what comes before it is in order. -/
  | unclosed {location : Location} (haccepts : Accepts limit before)
    (hread : Window.read? opened = none) :
    Blames limit source before opened ⟨.unclosedMustache, location⟩
  /-- What comes before a window is in order, and with the window the source fails in this way
  however it goes on. -/
  | window {e : DirectiveError} {w : Window} {after : List Char}
    (hfault : e.fault.isUnclosed = false) (haccepts : Accepts limit before)
    (hread : Window.read? opened = some (w, after))
    (hfails : ∀ tail, parseDirectives (String.ofList (before ++ (w.spelling ++ tail))) limit =
      .error e) : Blames limit source before opened e

/-- A window of a source opens where the text before it ends, and is read there. -/
theorem Cut.exists_opened {source : String} {first later : List Segment} {s : Segment}
    (h : (ofSource source).segments = first ++ s :: later) :
    ∃ opened after, source.toList = textOf first ++ s.gap ++ (openBraces.toList ++ opened) ∧
      Location.at? source (bytes (textOf first ++ s.gap)) = some s.location ∧
      Window.read? opened = some (s.window, after) := by
  have hspelling : textOf (ofSource source).segments ++ (ofSource source).rest = source.toList :=
    spelling_ofText .start false source.toList
  let after := textOf later ++ (ofSource source).rest
  have hopened : openBraces.toList ++ (s.window.spelling ++ after).drop 2 =
      s.window.spelling ++ after :=
    Window.drop_of_startsWith (s.window.startsWith_spelling after)
  have hsource : source.toList = textOf first ++ s.gap ++
      (openBraces.toList ++ (s.window.spelling ++ after).drop 2) := by
    rw [hopened, ← hspelling, h]
    simp [after]
  refine ⟨_, after, hsource, ?_, ?_⟩
  · rw [Location.at?_append hsource]
    exact congrArg some (location_ofText .start false source.toList first s later h).symm
  · have hmem : s ∈ (ofSource source).segments := by
      rw [h]
      simp
    exact reads_of_mem hmem after

theorem allAccepted_of_foldlM {limit : Nat} {source : String} {b : Builder}
    (hfold : (Cut.ofSource source).segments.foldlM (Builder.addSegment limit) {} = .ok b)
    (hunclosed : (Cut.ofSource source).unclosed = none) : AllAccepted limit source := by
  refine ⟨hunclosed, fun first later hsegments => ?_⟩
  rw [hsegments, List.foldlM_append] at hfold
  obtain ⟨b', hfirst, -⟩ := exists_of_bind_ok hfold
  have hnone : splitWhere (startsWith openBraces) [] = none := rfl
  have haccepts := Cut.accepts_of_foldlM hsegments hfirst hnone
  rwa [List.append_nil] at haccepts

/-- The ways in which a cut source is in error: with a segment, with a window that is left over, or
with the blocks that are left open. -/
theorem Cut.error_cases {c : Cut} {limit : Nat} {e : DirectiveError}
    (h : c.program limit = .error e) :
    c.segments.foldlM (Builder.addSegment limit) {} = .error e ∨
      ∃ b, c.segments.foldlM (Builder.addSegment limit) {} = .ok b ∧
        ((∃ location, c.unclosed = some location ∧ e = ⟨.unclosedMustache, location⟩) ∨
          c.unclosed = none ∧ ∃ block outer, b.blocks = block :: outer ∧
            e = ⟨.unclosedBlock block.1.path, block.2⟩) := by
  rcases exists_of_bind_error h with hfold | ⟨b, hfold, hrest⟩
  · exact .inl hfold
  · refine .inr ⟨b, hfold, ?_⟩
    split at hrest
    · rename_i location hunclosed
      cases hrest
      exact .inl ⟨location, hunclosed, rfl⟩
    · rename_i hunclosed
      refine .inr ⟨hunclosed, ?_⟩
      have hblocks := Builder.blocks_modify b (Statement.pushText (String.ofList c.text))
      unfold Builder.finish at hrest
      split at hrest
      · cases hrest
      · rename_i frame outer hframes
        cases hrest
        exact ⟨(frame.expression, frame.location), _,
          hblocks.symm.trans (congrArg (List.map _) hframes), rfl⟩

/-- **An error is located where the first directive opens that is wrong.**  Up to there the source is
in order, and with that directive it fails in the same way however it goes on.  If all directives
are in order and a block is never closed, it is located where the innermost one opens that is open
at the end. -/
theorem parseDirectives_error_located (source : String) (limit : Nat) {e : DirectiveError}
    (h : parseDirectives source limit = .error e) :
    ∃ before opened, source.toList = before ++ (openBraces.toList ++ opened) ∧
      Location.at? source (bytes before) = some e.location ∧
      Blames limit source before opened e := by
  have hspelling : Cut.textOf (Cut.ofSource source).segments ++ (Cut.ofSource source).rest =
      source.toList := Cut.spelling_ofText .start false source.toList
  rcases Cut.error_cases h with
    hfails | ⟨b, hfold, ⟨location, hunclosed, rfl⟩ | ⟨hunclosed, block, outer, hblocks, rfl⟩⟩
  · obtain ⟨first, s, later, b, hsegments, hfirst, hadd⟩ := exists_of_foldlM_error _ hfails
    obtain ⟨hlocation, hfault⟩ := Builder.error_of_addSegment hadd
    obtain ⟨opened, after, hsource, hat, hread⟩ := Cut.exists_opened hsegments
    have hmem : s ∈ (Cut.ofSource source).segments := by
      rw [hsegments]
      simp
    have haccepts := Cut.accepts_of_foldlM hsegments hfirst (Cut.splitWhere_gap_of_mem hmem)
    rw [← hlocation] at hat
    exact ⟨_, opened, hsource, hat,
      .window hfault haccepts hread (Cut.fails_of_addSegment hsegments hfirst hadd)⟩
  · obtain ⟨gap, opened, hrest, hgap, hread, hlocation⟩ := Cut.exists_of_unclosed hunclosed
    have hsource : source.toList =
        Cut.textOf (Cut.ofSource source).segments ++ gap ++ (openBraces.toList ++ opened) := by
      rw [← hspelling, List.append_assoc]
      exact congrArg _ hrest
    have haccepts := Cut.accepts_of_foldlM (List.append_nil _).symm hfold hgap
    refine ⟨_, opened, hsource, ?_, .unclosed haccepts hread⟩
    rw [Location.at?_append hsource]
    exact congrArg some hlocation.symm
  · obtain ⟨first, s, later, hsegments, hinnermost, hlocation, more, hevents⟩ :=
      exists_innermostOpen hfold hblocks
    obtain ⟨opened, after, hsource, hat, -⟩ := Cut.exists_opened hsegments
    rw [hlocation] at hat
    exact ⟨_, opened, hsource, hat,
      .block (allAccepted_of_foldlM hfold hunclosed) hsegments hinnermost rfl hevents⟩

/-- A value that is missing, inside of a block and before a directive that is not closed. -/
theorem parseDirectives_error_located_of_hash :
    ∃ source : String, ∃ e : DirectiveError,
      source = "a\n\x7b\x7b#b\x7d\x7d\x7b\x7bc d=\x7d\x7d\x7b\x7b" ∧ e = ⟨.expression .missingValue, ⟨2, 7, 8⟩⟩ ∧
      parseDirectives source 3 = .error e ∧
      ∃ before opened, source.toList = before ++ (openBraces.toList ++ opened) ∧
        Location.at? source (bytes before) = some ⟨2, 7, 8⟩ ∧ Blames 3 source before opened e := by
  have h : parseDirectives "a\n\x7b\x7b#b\x7d\x7d\x7b\x7bc d=\x7d\x7d\x7b\x7b" 3 =
      .error ⟨.expression .missingValue, ⟨2, 7, 8⟩⟩ := by
    cbv
  exact ⟨_, _, rfl, rfl, h, parseDirectives_error_located _ 3 h⟩

end TemplateTree
