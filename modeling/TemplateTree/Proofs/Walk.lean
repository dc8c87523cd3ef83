/-
A walk through a source by offsets.

The reader of directives is a loop with a cursor.  A turn of it looks for the next opener from the
cursor on, reads the window there, takes the text between, and sets the cursor to the end of the
window.  `Walk.turn?` is one turn with all of its slices, and `Walk.run?` the loop.

No window is shorter than its four braces, so the loop comes to its end, and this is what makes
`run?` a definition.  The cursor always is at the end of some part of the source, and so no slice
fails: `Walk.run?_append` says that the loop builds from there what the cut of the rest says.
-/
import TemplateTree.Proofs.Offsets

namespace TemplateTree

/-! ### Turns -/

/-- Where the walk stands, and what it has built. -/
structure Walk where
  cursor : Nat := 0
  /-- Does a window end here that drops the blanks after it? -/
  trimmed : Bool := false
  builder : Builder := {}

/-- What a turn of the walk comes to. -/
inductive Walk.Turned
  | goesOn (next : Walk)
  | ends (result : Except DirectiveError Builder)

namespace Walk

/-- One turn: to the end of the next window, or of the source.  Nothing if a slice fails. -/
def turn? (limit : Nat) (source : List Char) (w : Walk) : Option Turned :=
  if bytes source ≤ w.cursor then some (.ends (.ok w.builder))
  else do
    let text ← from? source w.cursor
    match find? openBraces text with
    | none =>
      let text := if w.trimmed then trimStart text else text
      some (.ends (.ok (w.builder.addText (String.ofList text))))
    | some found =>
      let opener := w.cursor + found
      match ← windowAt? source opener with
      | .error e => some (.ends (.error e))
      | .ok placed =>
        let gap ← slice? source w.cursor opener
        match w.builder.addSegment limit ⟨gap, w.trimmed, placed.window, placed.location⟩ with
        | .error e => some (.ends (.error e))
        | .ok builder => some (.goesOn ⟨placed.stop, placed.window.trimRight, builder⟩)

/-- **Each turn goes on by at least four bytes.** -/
theorem four_le_turn? {limit : Nat} {source : List Char} {w next : Walk}
    (h : w.turn? limit source = some (.goesOn next)) :
    w.cursor < bytes source ∧ w.cursor + 4 ≤ next.cursor := by
  unfold turn? at h
  split at h
  · cases h
  · rename_i hcursor
    obtain ⟨text, -, h⟩ := Option.bind_eq_some_iff.mp h
    split at h
    · cases h
    · obtain ⟨reading, hreading, h⟩ := Option.bind_eq_some_iff.mp h
      cases reading with
      | error e => cases h
      | ok placed =>
        obtain ⟨gap, -, h⟩ := Option.bind_eq_some_iff.mp h
        split at h
        · cases h
        · cases h
          have hstop := four_le_windowAt? hreading
          simp only
          omega

/-- The walk to the end of the source, or to the first window that fails.  Nothing if a slice
fails. -/
def run? (limit : Nat) (source : List Char) (w : Walk) : Option (Except DirectiveError Builder) :=
  match _h : w.turn? limit source with
  | none => none
  | some (.ends result) => some result
  | some (.goesOn next) => next.run? limit source
termination_by bytes source - w.cursor
decreasing_by
  have hstep := four_le_turn? _h
  omega

end Walk

/-- The program of a source that is read by offsets.  Nothing if a slice fails. -/
def programAt? (limit : Nat) (source : List Char) : Option (Except DirectiveError Program) :=
  (Walk.run? limit source {}).map fun result => result >>= Builder.finish

namespace Walk

variable {limit : Nat} {source : List Char} {w : Walk}

theorem run?_of_ends {result : Except DirectiveError Builder}
    (h : w.turn? limit source = some (.ends result)) : w.run? limit source = some result := by
  rw [run?]
  split <;> simp_all

theorem run?_of_goesOn {next : Walk} (h : w.turn? limit source = some (.goesOn next)) :
    w.run? limit source = next.run? limit source := by
  rw [run?]
  split <;> simp_all

end Walk

/-- What a builder comes to at the end of a cut. -/
def Cut.build (limit : Nat) (c : Cut) (b : Builder) : Except DirectiveError Builder := do
  let b ← c.segments.foldlM (Builder.addSegment limit) b
  match c.unclosed with
  | some location => .error ⟨.unclosedMustache, location⟩
  | none => .ok (b.addText (String.ofList c.text))

theorem Cut.program_eq_build (limit : Nat) (c : Cut) :
    c.program limit = c.build limit {} >>= Builder.finish := by
  unfold Cut.program Cut.build
  rw [bind_assoc]
  congr 1
  funext b
  cases c.unclosed <;> rfl

/-- No text is added by adding the empty one. -/
theorem Builder.addText_empty (b : Builder) : b.addText "" = b := by
  have hpush : Statement.pushText "" = id := funext Statement.pushText_empty
  rw [addText, hpush]
  obtain ⟨root, frames⟩ := b
  cases frames with
  | nil => rfl
  | cons frame outer =>
    obtain ⟨expression, location, body, inverse⟩ := frame
    cases inverse <;> rfl

/-- **A turn comes to the end of the next window**, if one opens and is closed, and the builder
takes it with the gap before it. -/
theorem Walk.turn?_append (limit : Nat) (before text : List Char) (trimmed : Bool) (b : Builder) :
    Walk.turn? limit (before ++ text) ⟨bytes before, trimmed, b⟩ = some
      (match splitWhere (startsWith openBraces) text with
        | none => .ends (.ok (b.addText (String.ofList (if trimmed then trimStart text else text))))
        | some (gap, opened) =>
          match Window.read? (opened.drop 2) with
          | none => .ends (.error ⟨.unclosedMustache, Location.start.after (before ++ gap)⟩)
          | some (window, _) =>
            match b.addSegment limit
                ⟨gap, trimmed, window, Location.start.after (before ++ gap)⟩ with
            | .error e => .ends (.error e)
            | .ok b' =>
              .goesOn ⟨bytes (before ++ gap ++ window.spelling), window.trimRight, b'⟩) := by
  unfold Walk.turn?
  split
  · rename_i hend
    have htext : text = [] := by
      rw [bytes_append] at hend
      exact bytes_eq_zero_iff.mp (by simp only at hend; omega)
    have hblank : (if trimmed then trimStart [] else []) = [] := by
      cases trimmed <;> rfl
    have hnone : splitWhere (startsWith openBraces) [] = none := rfl
    have hsame : b.addText (String.ofList []) = b := Builder.addText_empty b
    rw [htext, hnone]
    simp only [hblank, hsame]
  · simp only [from?_append, Option.bind_eq_bind, Option.bind_some, find?]
    cases hsplit : splitWhere (startsWith openBraces) text with
    | none => rfl
    | some found =>
      obtain ⟨gap, opened⟩ := found
      have hopened : openBraces.toList ++ opened.drop 2 = opened :=
        Window.drop_of_startsWith (splitWhere_found hsplit)
      have hsource : before ++ text = before ++ gap ++ (openBraces.toList ++ opened.drop 2) := by
        rw [hopened, List.append_assoc, splitWhere_append hsplit]
      have hgap : slice? (before ++ text) (bytes before) (bytes before + bytes gap) = some gap := by
        rw [← splitWhere_append hsplit, slice?_append]
      have hwindow := windowAt?_append (before ++ gap) (opened.drop 2)
      rw [← hsource, bytes_append] at hwindow
      simp only [Option.map_some, hwindow, Option.bind_some]
      cases hread : Window.read? (opened.drop 2) with
      | none => rfl
      | some reading =>
        obtain ⟨window, after⟩ := reading
        simp only [hgap, Option.bind_some]
        cases b.addSegment limit ⟨gap, trimmed, window, Location.start.after (before ++ gap)⟩ <;> rfl

/-- **The walk builds what the cut says**, from the place to which it has come. -/
theorem Walk.run?_append (limit : Nat) (before text : List Char) (trimmed : Bool) (b : Builder) :
    Walk.run? limit (before ++ text) ⟨bytes before, trimmed, b⟩ =
      some ((Cut.ofText (Location.start.after before) trimmed text).build limit b) := by
  generalize hhere : Location.start.after before = here
  -- on the cut of what is left, while `before` grows by a gap and a window each time
  fun_induction Cut.ofText here trimmed text generalizing before b with
  | case1 here trimmed text hs =>
    have hturn := turn?_append limit before text trimmed b
    rw [hs] at hturn
    exact run?_of_ends hturn
  | case2 here trimmed text gap opened hs opener hw =>
    have hturn := turn?_append limit before text trimmed b
    rw [hs] at hturn
    simp only [hw, Location.after_append, hhere] at hturn
    exact run?_of_ends hturn
  | case3 here trimmed text gap opened hs opener window after hw later ih =>
    have hturn := turn?_append limit before text trimmed b
    rw [hs] at hturn
    simp only [hw, Location.after_append, hhere] at hturn
    have hopened : openBraces.toList ++ opened.drop 2 = opened :=
      Window.drop_of_startsWith (splitWhere_found hs)
    have hsource : before ++ text = before ++ gap ++ window.spelling ++ after := by
      rw [List.append_assoc _ window.spelling, Window.spelling_append hw, hopened,
        List.append_assoc, splitWhere_append hs]
    simp only [Cut.build, List.foldlM_cons]
    cases hadd : b.addSegment limit ⟨gap, trimmed, window, opener⟩ with
    | error e =>
      rw [hadd] at hturn
      exact run?_of_ends hturn
    | ok b' =>
      rw [hadd] at hturn
      have hnext := ih (before ++ gap ++ window.spelling) b'
        (by rw [Location.after_append, Location.after_append, hhere])
      rw [run?_of_goesOn hturn, hsource, hnext]
      rfl

/-- **A source is read by offsets without a slice that fails.**  At every opener the window ends just
past the first closer that its beginning admits, unless there is none.  Each turn of the walk goes on
by at least four bytes, and the walk comes to the program that the library reads, or to its error. -/
theorem read_by_offsets (source : String) :
    (∀ before text, source.toList = before ++ (openBraces.toList ++ text) →
      ∃ result, windowAt? source.toList (bytes before) = some result ∧
        ReadsFirst before text result) ∧
    (∀ limit w next, Walk.turn? limit source.toList w = some (.goesOn next) →
      w.cursor + 4 ≤ next.cursor) ∧
    ∀ limit, programAt? limit source.toList = some (parseDirectives source limit) := by
  refine ⟨fun before text hsource => ?_, fun limit w next hturn => (Walk.four_le_turn? hturn).2,
    fun limit => ?_⟩
  · rw [hsource]
    exact exists_windowAt? before text
  · have hrun := Walk.run?_append limit [] source.toList false {}
    rw [List.nil_append] at hrun
    rw [programAt?, show ({} : Walk) = ⟨bytes [], false, {}⟩ from rfl, hrun]
    exact congrArg some (Cut.program_eq_build limit _).symm

/-- A comment with the end of a directive in it, after a letter of two bytes: it ends past the dashes,
and these have a tilde after them. -/
theorem read_by_offsets_of_comment :
    ∃ (placed : PlacedWindow) (long : Bool) (rest : List Char),
      windowAt? "é\x7b\x7b!--\x7d\x7d--~\x7d\x7d".toList 2 = some (.ok placed) ∧
      placed.window = ⟨false, false, "!--\x7d\x7d--".toList, true⟩ ∧ placed.stop = 14 ∧
      Window.mark long ++ rest = "!--\x7d\x7d--~\x7d\x7d".toList ∧
      placed.EndsFirst ['é'] long rest ∧
      parseDirectives "é\x7b\x7b!--\x7d\x7d--~\x7d\x7d" 1 = .ok [.content "é"] := by
  have hread : windowAt? "é\x7b\x7b!--\x7d\x7d--~\x7d\x7d".toList 2 =
      some (.ok ⟨⟨false, false, "!--\x7d\x7d--".toList, true⟩, ⟨1, 2, 2⟩, 14⟩) := by
    rfl
  have hprogram : programAt? 1 "é\x7b\x7b!--\x7d\x7d--~\x7d\x7d".toList =
      some (.ok [.content "é"]) := by
    rw [programAt?, Walk.run?_of_goesOn rfl, Walk.run?_of_ends rfl]
    rfl
  obtain ⟨hwindow, -, hwalk⟩ := read_by_offsets "é\x7b\x7b!--\x7d\x7d--~\x7d\x7d"
  obtain ⟨result, hresult, triple, trimLeft, long, rest, hbegins, -, hcases⟩ :=
    hwindow ['é'] "!--\x7d\x7d--~\x7d\x7d".toList rfl
  obtain rfl := Option.some.inj (hresult.symm.trans hread)
  rcases hcases with ⟨hunclosed, -⟩ | ⟨placed, hplaced, htriple, htrimLeft, hends⟩
  · cases hunclosed
  · cases hplaced
    simp only at htriple htrimLeft
    subst htriple htrimLeft
    exact ⟨_, long, rest, hread, rfl, rfl, hbegins.split.symm, hends,
      Option.some.inj ((hwalk 1).symm.trans hprogram)⟩

end TemplateTree
