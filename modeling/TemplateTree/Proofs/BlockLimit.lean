/-
What a limit on the nesting of blocks does.

The limit is asked for where a block opens, and nowhere else.  So a builder under a lower
limit takes the segments of a source as it does under a higher one, up to the first that
opens a block while as many blocks are open as may be.  There it fails, and names the place
where the directive opens.

Which segment that is can be told without building anything: `openBlocks` counts the blocks
that are open after some windows from the windows alone.  And whether there is one can be
told from the program, because the peak of a builder is how deep its program nests in the
end, although blocks become a part of it only when they are closed.
-/
import TemplateTree.Proofs.Grammar
import TemplateTree.Proofs.Height

namespace TemplateTree

/-! ### How deep a program nests -/

namespace Statement

mutual

/-- How deep blocks nest in a statement. -/
def nesting : Statement → Nat
  | .content _ | .mustache _ => 0
  | .block _ body inverse => max (nestingOf body) (nestingOfInverse inverse) + 1

/-- How deep blocks nest in a program. -/
def nestingOf : List Statement → Nat
  | [] => 0
  | statement :: rest => max (nesting statement) (nestingOf rest)

/-- How deep blocks nest in the program for the other case, if there is one. -/
def nestingOfInverse : Option (List Statement) → Nat
  | none => 0
  | some program => nestingOf program

end

theorem nestingOf_le_iff {program : Program} {room : Nat} :
    nestingOf program ≤ room ↔ ∀ statement ∈ program, statement.nesting ≤ room := by
  induction program with
  | nil => simp [nestingOf]
  | cons statement rest ih => simp [nestingOf, ih]

theorem nestingOf_reverse (program : Program) : nestingOf program.reverse = nestingOf program := by
  refine eq_of_forall_ge_iff fun room => ?_
  simp [nestingOf_le_iff]

theorem nestingOf_pushText (text : String) (program : Program) :
    nestingOf (pushText text program) = nestingOf program := by
  unfold pushText
  split
  · rfl
  · split
    · simp [nestingOf, nesting]
    · simp [nestingOf, nesting]

end Statement

/-! ### The peak of a builder -/

/-- How deep blocks nest so far in the parts of a block that is open. -/
def Frame.height (f : Frame) : Nat :=
  max (Statement.nestingOf f.body) (Statement.nestingOfInverse f.inverse)

/-- Both parts count, and only one of them is being built. -/
theorem Frame.height_modify (f : Frame) {change : Program → Program} {depth : Nat}
    (hchange : ∀ program,
      Statement.nestingOf (change program) = max (Statement.nestingOf program) depth) :
    (f.modify change).height = max f.height depth := by
  obtain ⟨expression, location, body, inverse⟩ := f
  match inverse with
  | none => simp [modify, height, Statement.nestingOfInverse, hchange]
  | some inverse => simp [modify, height, Statement.nestingOfInverse, hchange, Nat.max_assoc]

/-- A block is one level of its own. -/
theorem Frame.nesting_toStatement (f : Frame) : f.toStatement.nesting = f.height + 1 := by
  obtain ⟨expression, location, body, inverse⟩ := f
  match inverse with
  | none =>
    simp [toStatement, Statement.nesting, height, Statement.nestingOf_reverse,
      Statement.nestingOfInverse]
  | some inverse =>
    simp [toStatement, Statement.nesting, height, Statement.nestingOf_reverse,
      Statement.nestingOfInverse]

namespace Builder

/-- How deep blocks nest in the open blocks, innermost first, and in the program itself. -/
def heights (b : Builder) : List Nat :=
  b.frames.map Frame.height ++ [Statement.nestingOf b.root]

/-- How deep the program nests so far. -/
def peak (b : Builder) : Nat :=
  peakOf b.heights

variable {limit : Nat} {location : Location} {b b' : Builder} {event : Event}

theorem length_heights (b : Builder) : b.heights.length = b.frames.length + 1 := by
  simp [heights]

theorem length_frames_le_peak (b : Builder) : b.frames.length ≤ b.peak := by
  have hlength := length_le_peakOf b.heights
  rw [length_heights] at hlength
  exact Nat.le_of_succ_le_succ hlength

theorem heights_modify (b : Builder) {change : Program → Program} {depth : Nat}
    (hchange : ∀ program,
      Statement.nestingOf (change program) = max (Statement.nestingOf program) depth) :
    (b.modify change).heights = raise depth b.heights := by
  obtain ⟨root, frames⟩ := b
  match frames with
  | [] => simp [modify, heights, raise, hchange]
  | frame :: outer => simp [modify, heights, raise, frame.height_modify hchange]

theorem heights_addStatement (b : Builder) (statement : Statement) :
    (b.addStatement statement).heights = raise statement.nesting b.heights := by
  refine b.heights_modify fun program => ?_
  rw [Statement.nestingOf, Nat.max_comm]

theorem peak_addText (b : Builder) (text : String) : (b.addText text).peak = b.peak := by
  have hheights : (b.addText text).heights = raise 0 b.heights := by
    refine b.heights_modify fun program => ?_
    rw [Statement.nestingOf_pushText, Nat.max_zero]
  rw [peak, hheights, raise_zero, peak]

/-- **An event raises the peak to the number of open blocks**, if it is less. -/
theorem peak_add (h : b.add limit location event = .ok b') :
    b'.peak = max b.peak b'.frames.length := by
  -- unless a block opens, the number of open blocks does not count
  have hsame : b'.peak = b.peak → b'.peak = max b.peak b'.frames.length := by
    intro heq
    have hlength := b'.length_frames_le_peak
    omega
  cases adds_of_add h with
  | text text => exact hsame (b.peak_addText text)
  | mustache m =>
    refine hsame ?_
    rw [peak, heights_addStatement, Statement.nesting, raise_zero, peak]
  | opening expression hroom =>
    show peakOf (0 :: b.heights) = max b.peak (b.frames.length + 1)
    rw [peakOf_open, length_heights, peak]
  | otherwise hframes hinverse =>
    refine hsame ?_
    simp [peak, heights, hframes, Frame.height, hinverse, Statement.nestingOfInverse,
      Statement.nestingOf]
  | closing hframes =>
    refine hsame ?_
    rw [peak, heights_addStatement, Frame.nesting_toStatement, peakOf_close _ (by simp [heights])]
    simp [peak, heights, hframes]

end Builder

/-! ### How many blocks are open -/

namespace Window

/-- Does a block open here?  It does after a hash, and after a caret with a name. -/
def opens (w : Window) : Bool :=
  !w.triple &&
    match trim w.body with
    | '#' :: _ => true
    | '^' :: rest => !rest.all isBlank
    | _ => false

/-- Does a block close here? -/
def closes (w : Window) : Bool :=
  !w.triple &&
    match trim w.body with
    | '/' :: _ => true
    | _ => false

/-- How many blocks are open after a window. -/
def openAfter (count : Nat) (w : Window) : Nat :=
  if w.opens then count + 1 else if w.closes then count - 1 else count

end Window

/-- How many blocks are open after some segments. -/
def openBlocks (segments : List Segment) : Nat :=
  segments.foldl (fun count s => s.window.openAfter count) 0

namespace Event

/-- Does a block open or close here? -/
def isBracket : Event → Bool
  | .opening _ | .closing _ => true
  | .text _ | .mustache _ | .otherwise => false

/-- How many blocks are open after an event. -/
def openAfter (count : Nat) : Event → Nat
  | .opening _ => count + 1
  | .closing _ => count - 1
  | .text _ | .mustache _ | .otherwise => count

theorem openAfter_of_not_isBracket {event : Event} (h : event.isBracket = false) (count : Nat) :
    event.openAfter count = count := by
  match event, h with
  | .text _, _ | .mustache _, _ | .otherwise, _ => rfl

/-- What only brackets change is not changed by a row without them. -/
theorem foldl_of_not_isBracket {γ : Type} {after : γ → Event → γ}
    (hafter : ∀ {event : Event}, event.isBracket = false → ∀ state, after state event = state)
    {events : List Event} (h : ∀ event ∈ events, event.isBracket = false) (state : γ) :
    events.foldl after state = state := by
  induction events with
  | nil => rfl
  | cons event rest ih =>
    obtain ⟨hevent, hrest⟩ := List.forall_mem_cons.mp h
    rw [List.foldl_cons, hafter hevent, ih hrest]

theorem isBracket_ofText (text : List Char) : ∀ event ∈ ofText text, event.isBracket = false := by
  intro event hmem
  unfold ofText at hmem
  split at hmem
  · simp at hmem
  · rw [List.mem_singleton.mp hmem]
    rfl

end Event

/-- What a window says, as far as blocks go. -/
inductive Window.Brackets (w : Window) : List Event → Prop
  | opens (expression : Expression) {more : List Event} (hopens : w.opens = true)
      (hmore : ∀ event ∈ more, event.isBracket = false) : Brackets w (.opening expression :: more)
  | closes (name : String) (hopens : w.opens = false) (hcloses : w.closes = true) :
    Brackets w [.closing name]
  | neither {events : List Event} (hopens : w.opens = false) (hcloses : w.closes = false)
      (hevents : ∀ event ∈ events, event.isBracket = false) : Brackets w events

namespace Window

variable {w : Window} {events : List Event}

theorem isBracket_ofBody {escaped : Bool} {body : List Char}
    (h : Event.ofBody escaped body = .ok events) : ∀ event ∈ events, event.isBracket = false := by
  obtain ⟨expression, -, hmustache⟩ := exists_of_bind_ok h
  cases hmustache
  simp [Event.isBracket]

/-- **A window opens a block exactly where it says so.** -/
theorem brackets_of_events (h : w.events = .ok events) : w.Brackets events := by
  unfold Window.events at h
  by_cases htriple : w.triple = true
  · rw [if_pos htriple] at h
    exact .neither (by simp [opens, htriple]) (by simp [closes, htriple]) (isBracket_ofBody h)
  rw [if_neg htriple] at h
  unfold plainEvents at h
  split at h
  · rename_i hbody
    cases h
    exact .neither (by simp [opens, hbody]) (by simp [closes, hbody]) (by simp)
  · rename_i rest hbody
    obtain ⟨expression, -, hmore⟩ := exists_of_bind_ok h
    cases hmore
    exact .opens expression (by simp [opens, hbody, htriple]) (by simp)
  · rename_i rest hbody
    split at h
    · rename_i hblank
      cases h
      exact .neither (by simp [opens, hbody, hblank]) (by simp [closes, hbody])
        (by simp [Event.isBracket])
    · rename_i hblank
      obtain ⟨expression, -, hmore⟩ := exists_of_bind_ok h
      cases hmore
      exact .opens expression (by simpa [opens, hbody, htriple] using hblank)
        (by simp [Event.isBracket])
  · rename_i rest hbody
    cases h
    exact .closes _ (by simp [opens, hbody]) (by simp [closes, hbody, htriple])
  · cases h
  · rename_i rest hbody
    exact .neither (by simp [opens, hbody]) (by simp [closes, hbody]) (isBracket_ofBody h)
  · rename_i hexcl hhash hcaret hslash hgt hamp
    have hopens : w.opens = false := by
      unfold opens
      split <;> simp_all
    have hcloses : w.closes = false := by
      unfold closes
      split <;> simp_all
    split at h
    · cases h
      exact .neither hopens hcloses (by simp [Event.isBracket])
    · split at h
      · cases h
      · exact .neither hopens hcloses (isBracket_ofBody h)

end Window

namespace Builder

variable {limit lower higher : Nat} {location : Location} {b b' : Builder} {event : Event}
  {s : Segment}

theorem length_frames_modify (b : Builder) (change : Program → Program) :
    (b.modify change).frames.length = b.frames.length := by
  obtain ⟨root, frames⟩ := b
  match frames with
  | [] => rfl
  | frame :: outer => rfl

theorem length_frames_add (h : b.add limit location event = .ok b') :
    b'.frames.length = event.openAfter b.frames.length := by
  cases adds_of_add h with
  | text text => exact length_frames_modify b _
  | mustache m => exact length_frames_modify b _
  | opening expression hroom => rfl
  | otherwise hframes hinverse => simp [hframes, Event.openAfter]
  | closing hframes =>
    rw [addStatement, length_frames_modify]
    simp [hframes, Event.openAfter]

/-- What an event makes of a builder, as far as brackets count for it, a segment makes of it by
its window alone. -/
theorem follows_addSegment {γ : Type} {read : Builder → γ} {after : γ → Event → γ}
    (hadd : ∀ {b b' : Builder} {event : Event}, b.add limit s.location event = .ok b' →
      read b' = after (read b) event)
    (hafter : ∀ {event : Event}, event.isBracket = false → ∀ state, after state event = state)
    (h : b.addSegment limit s = .ok b') :
    ∃ events, s.window.events = .ok events ∧ s.window.Brackets events ∧
      read b' = events.foldl after (read b) := by
  obtain ⟨⟨events, hevents⟩, hsaid⟩ := addSegment_eq_ok_iff.mp h
  refine ⟨events, hevents, Window.brackets_of_events hevents, ?_⟩
  have hwindow : s.window.said = events := by
    rw [Window.said, hevents]
  have hfold := foldlM_follows hadd s.said hsaid
  rwa [Segment.said, List.foldl_append,
    Event.foldl_of_not_isBracket hafter (Event.isBracket_ofText s.text), hwindow] at hfold

/-- **The blocks that are open after a segment are known from its window.** -/
theorem length_frames_addSegment (h : b.addSegment limit s = .ok b') :
    b'.frames.length = s.window.openAfter b.frames.length := by
  obtain ⟨events, -, hbrackets, hlength⟩ := @follows_addSegment limit b b' s _
    (fun b => b.frames.length) Event.openAfter length_frames_add
    Event.openAfter_of_not_isBracket h
  rw [hlength, Window.openAfter]
  cases hbrackets with
  | opens expression hopens hmore =>
    rw [List.foldl_cons, Event.foldl_of_not_isBracket Event.openAfter_of_not_isBracket hmore,
      if_pos hopens]
    rfl
  | closes name hopens hcloses =>
    rw [hopens, hcloses]
    rfl
  | neither hopens hcloses hevents =>
    rw [Event.foldl_of_not_isBracket Event.openAfter_of_not_isBracket hevents, hopens, hcloses]
    rfl

theorem length_frames_eq_openBlocks {segments : List Segment}
    (h : segments.foldlM (addSegment limit) {} = .ok b) :
    b.frames.length = openBlocks segments :=
  @foldlM_follows Segment Builder Nat _ (addSegment limit) (fun b => b.frames.length)
    (fun count s => s.window.openAfter count) length_frames_addSegment segments {} b h

/-! ### Within a limit -/

/-- Under a limit the peak does not go above it. -/
theorem peak_add_le (hpeak : b.peak ≤ limit) (h : b.add limit location event = .ok b') :
    b'.peak ≤ limit := by
  have hlength := b.length_frames_le_peak
  have hframes : b'.frames.length ≤ limit := by
    rw [length_frames_add h]
    cases adds_of_add h with
    | opening expression hroom => exact hroom
    | text text => exact hlength.trans hpeak
    | mustache m => exact hlength.trans hpeak
    | otherwise hframes hinverse => exact hlength.trans hpeak
    | closing hframes => exact (Nat.sub_le _ 1).trans (hlength.trans hpeak)
  rw [peak_add h]
  omega

theorem peak_addSegment_le (hpeak : b.peak ≤ limit) (h : b.addSegment limit s = .ok b') :
    b'.peak ≤ limit := by
  refine @foldlM_preserves Event Builder _ (add limit s.location) (fun b => b.peak ≤ limit) ?_
    s.said b b' hpeak (addSegment_eq_ok_iff.mp h).2
  intro b b' event hb hadd
  exact peak_add_le hb hadd

/-- The peak never goes down. -/
theorem le_peak_addSegment {depth : Nat} (hpeak : depth ≤ b.peak)
    (h : b.addSegment limit s = .ok b') : depth ≤ b'.peak := by
  refine @foldlM_preserves Event Builder _ (add limit s.location) (fun b => depth ≤ b.peak) ?_
    s.said b b' hpeak (addSegment_eq_ok_iff.mp h).2
  intro b b' event hb hadd
  rw [peak_add hadd]
  exact hb.trans (Nat.le_max_left _ _)

/-- When all blocks are closed, the peak is how deep the program nests. -/
theorem peak_of_closed (h : b.frames = []) : b.peak = Statement.nestingOf b.root := by
  simp [peak, heights, h, peakOf]

/-! ### Two limits -/

theorem add_limit (hevent : ∀ expression, event ≠ .opening expression) :
    b.add lower location event = b.add higher location event := by
  match event with
  | .text _ | .mustache _ | .otherwise | .closing _ => rfl
  | .opening expression => exact absurd rfl (hevent expression)

theorem foldlM_add_limit {events : List Event}
    (hevents : ∀ event ∈ events, ∀ expression, event ≠ .opening expression) (b : Builder) :
    events.foldlM (add lower location) b = events.foldlM (add higher location) b := by
  induction events generalizing b with
  | nil => rfl
  | cons event rest ih =>
    obtain ⟨hevent, hrest⟩ := List.forall_mem_cons.mp hevents
    rw [List.foldlM_cons, List.foldlM_cons, @add_limit lower higher location b event hevent]
    congr 1
    funext next
    exact ih hrest next

/-- A text is taken under any limit, and opens no block. -/
theorem exists_foldlM_add_ofText (location : Location) (text : List Char) (b : Builder) :
    ∃ next, next.frames.length = b.frames.length ∧
      ∀ limit, (Event.ofText text).foldlM (add limit location) b = .ok next := by
  by_cases hempty : text = []
  · exact ⟨b, rfl, fun limit => by rw [Event.ofText, if_pos hempty]; rfl⟩
  · refine ⟨b.addText (String.ofList text), length_frames_modify b _, fun limit => ?_⟩
    rw [Event.ofText, if_neg hempty]
    rfl

/-- **A segment is taken alike under both limits**, unless it opens a block while the lower
limit is reached. -/
theorem addSegment_limit (hlimit : lower ≤ higher) (b : Builder) (s : Segment) :
    b.addSegment lower s = b.addSegment higher s ∨
      s.window.opens = true ∧ lower ≤ b.frames.length ∧
        b.addSegment lower s = .error ⟨.nestingTooDeep lower, s.location⟩ := by
  match hsaid : s.events with
  | .error fault =>
    refine .inl ?_
    rw [addSegment, addSegment, hsaid]
  | .ok said =>
    obtain ⟨events, hevents, htext⟩ := exists_of_bind_ok hsaid
    cases htext
    obtain ⟨next, hlength, hnext⟩ := exists_foldlM_add_ofText s.location s.text b
    have hfold : ∀ limit, (Event.ofText s.text ++ events).foldlM (add limit s.location) b =
        events.foldlM (add limit s.location) next := by
      intro limit
      rw [List.foldlM_append, hnext limit]
      rfl
    -- what is left to compare is what the two limits make of the window
    have halike : events.foldlM (add lower s.location) next =
          events.foldlM (add higher s.location) next →
        b.addSegment lower s = b.addSegment higher s := by
      intro hsame
      rw [addSegment, addSegment, hsaid]
      simp only [hfold, hsame]
    cases Window.brackets_of_events hevents with
    | closes name hopens hcloses =>
      exact .inl (halike (foldlM_add_limit (by simp) next))
    | neither hopens hcloses hinner =>
      refine .inl (halike (foldlM_add_limit ?_ next))
      rintro event hmem expression rfl
      cases hinner _ hmem
    | @opens expression more hopens hmore =>
      by_cases hroom : next.frames.length < lower
      · refine .inl (halike ?_)
        have hadd : ∀ limit, lower ≤ limit →
            next.add limit s.location (.opening expression) =
              .ok { next with frames := { expression, location := s.location } :: next.frames } :=
          fun limit hle => if_neg (by omega)
        rw [List.foldlM_cons, List.foldlM_cons, hadd lower (Nat.le_refl _), hadd higher hlimit]
        refine foldlM_add_limit ?_ _
        rintro event hmem expression rfl
        cases hmore _ hmem
      · have hfull : next.add lower s.location (.opening expression) =
            .error (.nestingTooDeep lower) := if_pos (by omega)
        refine .inr ⟨hopens, by omega, ?_⟩
        rw [addSegment, hsaid]
        simp only [hfold]
        rw [List.foldlM_cons, hfull]
        rfl

/-- The same for a row of segments: up to the first that opens a block too many, nothing differs. -/
theorem foldlM_addSegment_limit (hlimit : lower ≤ higher) (segments : List Segment) (b : Builder) :
    segments.foldlM (addSegment lower) b = segments.foldlM (addSegment higher) b ∨
      ∃ before s after next, segments = before ++ s :: after ∧
        before.foldlM (addSegment lower) b = .ok next ∧
        before.foldlM (addSegment higher) b = .ok next ∧
        s.window.opens = true ∧ lower ≤ next.frames.length ∧
        segments.foldlM (addSegment lower) b = .error ⟨.nestingTooDeep lower, s.location⟩ := by
  induction segments generalizing b with
  | nil => exact .inl rfl
  | cons s rest ih =>
    rcases addSegment_limit hlimit b s with hsame | ⟨hopens, hfull, herror⟩
    · match hnext : b.addSegment higher s with
      | .error e =>
        refine .inl ?_
        rw [List.foldlM_cons, List.foldlM_cons, hsame, hnext]
        rfl
      | .ok next =>
        rw [hnext] at hsame
        have hcons : ∀ segments : List Segment,
            (s :: segments).foldlM (addSegment lower) b = segments.foldlM (addSegment lower) next ∧
            (s :: segments).foldlM (addSegment higher) b =
              segments.foldlM (addSegment higher) next := by
          intro segments
          rw [List.foldlM_cons, List.foldlM_cons, hsame, hnext]
          exact ⟨rfl, rfl⟩
        rw [(hcons rest).1, (hcons rest).2]
        rcases ih next with hrest | ⟨before, t, after, last, rfl, hlower, hhigher, hmore⟩
        · exact .inl hrest
        · refine .inr ⟨s :: before, t, after, last, rfl, ?_, ?_, hmore⟩
          · rw [(hcons before).1, hlower]
          · rw [(hcons before).2, hhigher]
    · refine .inr ⟨[], s, rest, b, rfl, rfl, rfl, hopens, hfull, ?_⟩
      rw [List.foldlM_cons, herror]
      rfl

end Builder

/-! ### Where it is too deep -/

/-- The segment after `before` is the first to open a block while `limit` blocks are open. -/
structure OpensTooDeep (limit : Nat) (before : List Segment) (s : Segment) : Prop where
  opens : s.window.opens = true
  full : openBlocks before = limit
  first : ∀ earlier t later, before = earlier ++ t :: later → t.window.opens = true →
    openBlocks earlier ≠ limit

/-- What is too deep in a cut source opens at `location`, which is where the text before it
ends. -/
def Cut.TooDeepAt (limit : Nat) (c : Cut) (location : Location) : Prop :=
  ∃ before s after, c.segments = before ++ s :: after ∧ OpensTooDeep limit before s ∧
    location = Location.start.after (before.flatMap (fun s => s.gap ++ s.window.spelling) ++ s.gap)

/-- **A segment has the place where its window opens.** -/
theorem Cut.location_ofText (here : Location) (trimmed : Bool) (text : List Char) :
    ∀ before s after, (Cut.ofText here trimmed text).segments = before ++ s :: after →
      s.location =
        here.after (before.flatMap (fun s => s.gap ++ s.window.spelling) ++ s.gap) := by
  fun_induction Cut.ofText here trimmed text with
  | case1 => intro before s after h; simp at h
  | case2 => intro before s after h; simp at h
  | case3 here trimmed text gap opened hs opener window after' hw later ih =>
    intro before s after h
    rcases before with _ | ⟨first, more⟩
    · obtain ⟨rfl, -⟩ := List.cons.inj h
      rfl
    · obtain ⟨rfl, hmore⟩ := List.cons.inj h
      rw [ih more s after hmore]
      simp only [List.flatMap_cons, List.append_assoc, Location.after_append]
      rfl

namespace Builder

variable {limit : Nat} {b b' next : Builder} {s : Segment}

theorem peak_foldlM_addSegment_le (segments : List Segment) (hpeak : b.peak ≤ limit)
    (h : segments.foldlM (addSegment limit) b = .ok b') : b'.peak ≤ limit := by
  refine @foldlM_preserves Segment Builder _ (addSegment limit) (fun b => b.peak ≤ limit) ?_
    segments b b' hpeak h
  intro b b' s hb hadd
  exact peak_addSegment_le hb hadd

/-- A block that opens goes above no limit. -/
theorem length_frames_lt_of_opens (hpeak : b.peak ≤ limit) (hopens : s.window.opens = true)
    (h : b.addSegment limit s = .ok b') : b.frames.length < limit := by
  have hlength := length_frames_addSegment h
  rw [Window.openAfter, if_pos hopens] at hlength
  have hle := b'.length_frames_le_peak.trans (peak_addSegment_le hpeak h)
  omega

theorem opensTooDeep_of_foldlM {before : List Segment}
    (h : before.foldlM (addSegment limit) {} = .ok next) (hopens : s.window.opens = true)
    (hfull : limit ≤ next.frames.length) : OpensTooDeep limit before s := by
  have hstart : ({} : Builder).peak ≤ limit := Nat.zero_le _
  refine ⟨hopens, ?_, ?_⟩
  · have hle := next.length_frames_le_peak.trans (peak_foldlM_addSegment_le before hstart h)
    rw [← length_frames_eq_openBlocks h]
    omega
  · rintro earlier t later rfl htopens
    rw [List.foldlM_append] at h
    obtain ⟨b, hearlier, hrest⟩ := exists_of_bind_ok h
    obtain ⟨b', hadd, -⟩ := exists_of_foldlM_cons hrest
    have hlt := length_frames_lt_of_opens (peak_foldlM_addSegment_le earlier hstart hearlier)
      htopens hadd
    rw [length_frames_eq_openBlocks hearlier] at hlt
    omega

end Builder

namespace Cut

variable {lower higher limit : Nat} {c : Cut} {program : Program}

/-- A program nests as deep as its builder was high. -/
theorem nestingOf_of_program (h : c.program limit = .ok program) :
    ∃ b, c.segments.foldlM (Builder.addSegment limit) {} = .ok b ∧
      Statement.nestingOf program = b.peak := by
  obtain ⟨b, hfold, -, hclosed, rfl⟩ := program_eq_ok_iff.mp h
  refine ⟨b, hfold, ?_⟩
  have htext : (b.addText (String.ofList c.text)).frames = [] := by
    rw [← List.length_eq_zero_iff, Builder.addText, Builder.length_frames_modify, hclosed]
    rfl
  rw [Statement.nestingOf_reverse, ← Builder.peak_of_closed htext, Builder.peak_addText]

/-- What a lower limit makes of a cut source: the same, or the error that it is too deep, where
it is.  In the second case the program nests too deep, if there is one. -/
theorem program_limit (h : lower ≤ higher) (source : String) :
    (ofSource source).program lower = (ofSource source).program higher ∨
      (∃ location, (ofSource source).TooDeepAt lower location ∧
        (ofSource source).program lower = .error ⟨.nestingTooDeep lower, location⟩) ∧
      ∀ program, (ofSource source).program higher = .ok program →
        lower < Statement.nestingOf program := by
  rcases Builder.foldlM_addSegment_limit h (ofSource source).segments {} with hsame | hdeep
  · refine .inl ?_
    rw [Cut.program, Cut.program, hsame]
  · obtain ⟨before, s, after, next, hsegments, hlower, hhigher, hopens, hfull, herror⟩ := hdeep
    refine .inr ⟨⟨s.location, ⟨before, s, after, hsegments, ?_, ?_⟩, ?_⟩, ?_⟩
    · exact Builder.opensTooDeep_of_foldlM hlower hopens hfull
    · exact location_ofText .start false source.toList before s after hsegments
    · rw [Cut.program, herror]
      rfl
    · intro program hprogram
      obtain ⟨b, hfold, hnesting⟩ := nestingOf_of_program hprogram
      rw [hsegments, List.foldlM_append, hhigher] at hfold
      obtain ⟨opened, hadd, hafter⟩ := exists_of_foldlM_cons hfold
      have hlength := Builder.length_frames_addSegment hadd
      rw [Window.openAfter, if_pos hopens] at hlength
      have hpeak : lower + 1 ≤ opened.peak := by
        have hle := opened.length_frames_le_peak
        omega
      rw [hnesting]
      exact @foldlM_preserves Segment Builder _ (Builder.addSegment higher)
        (fun b => lower + 1 ≤ b.peak) (fun hb hadd => Builder.le_peak_addSegment hb hadd)
        after opened b hpeak hafter

end Cut

/-- **The limit on the nesting of blocks is exact, and it changes nothing else.**  Under a lower
limit a source says the program that it says under a higher one if blocks nest no deeper in that
than the lower limit; else it is too deep, at the first directive that opens a block while as
many are open as may be.  What is wrong under the higher limit is wrong under the lower one, or
it is too deep there. -/
theorem parseDirectives_limit {lower higher : Nat} (h : lower ≤ higher) (source : String) :
    (∀ program, parseDirectives source higher = .ok program →
      (Statement.nestingOf program ≤ lower → parseDirectives source lower = .ok program) ∧
      (lower < Statement.nestingOf program →
        ∃ location, (Cut.ofSource source).TooDeepAt lower location ∧
          parseDirectives source lower = .error ⟨.nestingTooDeep lower, location⟩)) ∧
    ∀ e, parseDirectives source higher = .error e →
      parseDirectives source lower = .error e ∨
        ∃ location, (Cut.ofSource source).TooDeepAt lower location ∧
          parseDirectives source lower = .error ⟨.nestingTooDeep lower, location⟩ := by
  rcases Cut.program_limit h source with hsame | ⟨hdeep, hnesting⟩
  · refine ⟨fun program hprogram => ?_, fun e herror => .inl (hsame.trans herror)⟩
    have hlower : (Cut.ofSource source).program lower = .ok program := hsame.trans hprogram
    refine ⟨fun _ => hlower, fun hlt => ?_⟩
    obtain ⟨b, hfold, hpeak⟩ := Cut.nestingOf_of_program hlower
    have hle := Builder.peak_foldlM_addSegment_le _ (Nat.zero_le _) hfold
    omega
  · refine ⟨fun program hprogram => ⟨fun hle => ?_, fun _ => hdeep⟩, fun _ _ => .inr hdeep⟩
    have hlt := hnesting program hprogram
    omega

/-- Two levels, of which the inner one has only its second part.  A limit of one level is exceeded
where that one opens. -/
theorem parseDirectives_limit_of_caret :
    parseDirectives "\x7b\x7b#a\x7d\x7d\n\x7b\x7b^b\x7d\x7dx\x7b\x7b/b\x7d\x7d\x7b\x7b/a\x7d\x7d" 3 =
        .ok [.block ⟨"a", [], []⟩ [.content "\n", .block ⟨"b", [], []⟩ [] (some [.content "x"])] none] ∧
      (Cut.ofSource "\x7b\x7b#a\x7d\x7d\n\x7b\x7b^b\x7d\x7dx\x7b\x7b/b\x7d\x7d\x7b\x7b/a\x7d\x7d").TooDeepAt 1 ⟨2, 1, 7⟩ ∧
      parseDirectives "\x7b\x7b#a\x7d\x7d\n\x7b\x7b^b\x7d\x7dx\x7b\x7b/b\x7d\x7d\x7b\x7b/a\x7d\x7d" 1 =
        .error ⟨.nestingTooDeep 1, ⟨2, 1, 7⟩⟩ := by
  have hthree : parseDirectives "\x7b\x7b#a\x7d\x7d\n\x7b\x7b^b\x7d\x7dx\x7b\x7b/b\x7d\x7d\x7b\x7b/a\x7d\x7d" 3 =
      .ok [.block ⟨"a", [], []⟩ [.content "\n", .block ⟨"b", [], []⟩ [] (some [.content "x"])] none] := by
    cbv
  have hone : parseDirectives "\x7b\x7b#a\x7d\x7d\n\x7b\x7b^b\x7d\x7dx\x7b\x7b/b\x7d\x7d\x7b\x7b/a\x7d\x7d" 1 =
      .error ⟨.nestingTooDeep 1, ⟨2, 1, 7⟩⟩ := by
    cbv
  obtain ⟨location, hdeep, herror⟩ :=
    ((parseDirectives_limit (show 1 ≤ 3 by omega) _).1 _ hthree).2 (by decide)
  rw [hone] at herror
  cases herror
  exact ⟨hthree, hdeep, hone⟩

end TemplateTree
