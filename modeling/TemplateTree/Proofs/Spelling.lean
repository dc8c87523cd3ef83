/-
Events written out and read back.

The converse of cutting a source: a row of events, each in its own spelling, is cut where
its directives stand, and each directive says what it was spelled from.  Two things make
that work.  Texts have no opening brace, so the first opening delimiter is that of the
first directive; and the body of a directive neither holds the delimiter that closes it
nor ends in a part of one, so the first closing delimiter is its own.

Texts side by side in the row are one gap in the source.  `Event.gathered` is the row
with such texts made one, and nothing later can tell the two apart: not the builder, as
far as blocks go, and not the assembly, since where a text is cut does not matter.
-/
import TemplateTree.Proofs.Grammar

namespace TemplateTree

/-! ### Finding what was written -/

theorem splitWhere_of_found {found : List Char → Bool} {text : List Char}
    (h : found text = true) : splitWhere found text = some ([], text) := by
  cases text with
  | nil => simp [h]
  | cons c rest => rw [splitWhere_cons, if_pos h]

/-- A text does not begin with what has another first character. -/
theorem startsWith_cons_of_ne {sought : String} {first c : Char}
    (hsought : first ∈ sought.toList.head?) (h : first ≠ c) (rest : List Char) :
    startsWith sought (c :: rest) = false := by
  obtain ⟨tail, htail⟩ := List.head?_eq_some_iff.mp hsought
  simp [startsWith, htail, List.isPrefixOf, h]

/-- Where a delimiter is looked for, characters that it does not begin with are passed
over. -/
theorem splitWhere_append_of_head {sought : String} {first : Char} {gap after : List Char}
    (hsought : first ∈ sought.toList.head?) (hgap : first ∉ gap)
    (hafter : startsWith sought after = true) :
    splitWhere (startsWith sought) (gap ++ after) = some (gap, after) := by
  induction gap with
  | nil => exact splitWhere_of_found hafter
  | cons c rest ih =>
    have hc : first ≠ c := fun heq => hgap (by simp [heq])
    have hrest : first ∉ rest := fun hmem => hgap (by simp [hmem])
    rw [List.cons_append, splitWhere_cons, startsWith_cons_of_ne hsought hc, ih hrest]
    simp

namespace Window

theorem mem_closing_iff {triple : Bool} {c : Char} :
    c ∈ (closing triple).toList ↔ c = '\x7d' := by
  cases triple <;> simp [closing, closeBraces, closeTriple]

theorem not_closing_nil (triple : Bool) : ¬ (closing triple).toList <:+: [] := by
  intro hsub
  have hbrace := hsub.subset (mem_closing_iff.mpr rfl)
  cases hbrace

/-- The first delimiter after a body is the one that was put there, if the body neither
holds one nor ends in a part of one. -/
theorem splitWhere_closing (triple : Bool) {body : List Char} (after : List Char)
    (hfree : ¬ (closing triple).toList <:+: body) (hends : ∀ c ∈ body.getLast?, c ≠ '\x7d') :
    splitWhere (startsWith (closing triple)) (body ++ ((closing triple).toList ++ after)) =
      some (body, (closing triple).toList ++ after) := by
  induction body with
  | nil => exact splitWhere_of_found (List.isPrefixOf_iff_prefix.mpr (List.prefix_append _ _))
  | cons c rest ih =>
    have hnot : startsWith (closing triple) ((c :: rest) ++ ((closing triple).toList ++ after)) = false := by
      by_contra hfound
      have hpre : (closing triple).toList <+: (c :: rest) ++ ((closing triple).toList ++ after) :=
        List.isPrefixOf_iff_prefix.mp (by simpa [startsWith] using hfound)
      have hbody : c :: rest <+: (c :: rest) ++ ((closing triple).toList ++ after) :=
        List.prefix_append _ _
      by_cases hlength : (closing triple).toList.length ≤ (c :: rest).length
      · exact hfree (List.prefix_of_prefix_length_le hpre hbody hlength).isInfix
      · -- the body is then a part of the delimiter, and ends like one
        have hpart := List.prefix_of_prefix_length_le hbody hpre (by omega)
        have hlast := List.getLast?_eq_some_getLast (List.cons_ne_nil c rest)
        exact hends _ hlast (mem_closing_iff.mp (hpart.subset (List.getLast_mem _)))
    have hrest := ih (fun hsub => hfree (hsub.trans (List.suffix_cons c rest).isInfix)) ?_
    · rw [List.cons_append] at hnot ⊢
      rw [splitWhere_cons, hnot, hrest]
      simp
    · intro d hd
      refine hends d ?_
      cases rest with
      | nil => simp at hd
      | cons e tail => simpa using hd

/-- A window that reads as it is written: it trims nothing, is no comment, and has only
its own delimiters. -/
structure Plain (w : Window) : Prop where
  notTrimming : w.trimLeft = false ∧ w.trimRight = false
  begins : ∃ c ∈ w.body.head?, c ≠ '~' ∧ (w.triple = false → c ≠ '\x7b' ∧ c ≠ '!')
  ends : ∀ c ∈ w.body.getLast?, c ≠ '~' ∧ c ≠ '\x7d'
  free : ¬ (closing w.triple).toList <:+: w.body

theorem readPlain_spelling {w : Window} (h : w.Plain) (after : List Char) :
    readPlain w.triple (w.body ++ ((closing w.triple).toList ++ after)) = some (w.body, after) := by
  rw [readPlain, splitWhere_closing w.triple after h.free fun c hc => (h.ends c hc).2]
  simp [← String.length_toList]

/-- **A window reads as it was written**, whatever comes after it. -/
theorem read?_spelling {w : Window} (h : w.Plain) (after : List Char) :
    read? ((w.spelling ++ after).drop 2) = some (w, after) := by
  have hplain := readPlain_spelling h after
  obtain ⟨triple, trimLeft, body, trimRight⟩ := w
  obtain ⟨⟨hleft, hright⟩, ⟨c, hc, htilde, hdouble⟩, hends, hfree⟩ := h
  simp only at hleft hright hplain hdouble
  subst hleft hright
  obtain ⟨tail, rfl⟩ := List.head?_eq_some_iff.mp hc
  have hinner : ofInner triple false (c :: tail) = ⟨triple, false, c :: tail, false⟩ := by
    have hlast : (c :: tail).getLast? ≠ some '~' := fun hlast => (hends '~' hlast).1 rfl
    rw [ofInner, if_neg hlast]
  have hread : readInner triple false (c :: tail ++ ((closing triple).toList ++ after)) =
      some (⟨triple, false, c :: tail, false⟩, after) := by
    have hcomment : (!triple &&
        startsWith "!--" (c :: tail ++ ((closing triple).toList ++ after))) = false := by
      cases triple with
      | true => rfl
      | false => exact startsWith_cons_of_ne (by decide) (hdouble rfl).2.symm _
    rw [readInner, hcomment]
    simp only [Bool.false_eq_true, if_false, hplain, Option.map_some, hinner]
  cases triple with
  | true =>
    simpa [read?, spelling, opening, openTriple, tilde, htilde] using hread
  | false =>
    simpa [read?, spelling, opening, openBraces, tilde, htilde, (hdouble rfl).1] using hread

/-- A window begins where a directive does. -/
theorem startsWith_spelling (w : Window) (after : List Char) :
    startsWith openBraces (w.spelling ++ after) = true := by
  obtain ⟨triple, trimLeft, body, trimRight⟩ := w
  cases triple <;> simp [startsWith, spelling, opening, openBraces, openTriple, List.isPrefixOf]

end Window

/-! ### Rows of events -/

namespace Event

/-- An event as it stands in a source. -/
def spelling : Event → String
  | .text content => content
  | .mustache m => m.text
  | .opening expression => blockOpening expression.text
  | .otherwise => elseDirective
  | .closing name => blockClosing name

/-- Events as they stand in a source. -/
def spelled (events : List Event) : String :=
  String.join (events.map spelling)

/-- An event that is read as it is spelled: a text without braces, or a directive whose
window says it. -/
inductive Legible : Event → Prop
  | text {content : String} (hne : content ≠ "") (hbrace : '\x7b' ∉ content.toList) :
      Legible (.text content)
  | window {event : Event} {w : Window} (htext : event.isText = false) (hw : w.Plain)
      (hspelling : w.spelling = event.spelling.toList) (hevents : w.events = .ok [event]) :
      Legible event

/-- Events with texts that are side by side made one; `gap` is the text before them. -/
def gathered : List Char → List Event → List Event
  | gap, [] => ofText gap
  | gap, .text content :: rest => gathered (gap ++ content.toList) rest
  | gap, event :: rest => ofText gap ++ event :: gathered [] rest

theorem gathered_of_not_isText (gap : List Char) {event : Event} (h : event.isText = false)
    (rest : List Event) : gathered gap (event :: rest) = ofText gap ++ event :: gathered [] rest := by
  cases event with
  | text content => simp [isText] at h
  | _ => rfl

end Event

namespace Cut

theorem not_openBraces_of_not_mem {text : List Char} (h : '\x7b' ∉ text) :
    ¬ openBraces.toList <:+: text := by
  intro hsub
  exact h (hsub.subset (by simp [openBraces]))

theorem toList_spelled_cons (event : Event) (rest : List Event) :
    (Event.spelled (event :: rest)).toList =
      event.spelling.toList ++ (Event.spelled rest).toList := by
  simp [Event.spelled]

/-- **A row of events is cut into what it was spelled from.** -/
theorem events_ofText_spelled :
    ∀ (events : List Event), (∀ event ∈ events, event.Legible) →
      ∀ (here : Location) (gap : List Char), '\x7b' ∉ gap →
        (ofText here false (gap ++ (Event.spelled events).toList)).events =
            Event.gathered gap events ∧
          (ofText here false (gap ++ (Event.spelled events).toList)).unclosed = none ∧
          ∀ s ∈ (ofText here false (gap ++ (Event.spelled events).toList)).segments,
            s.window.Supported := by
  intro events
  induction events with
  | nil =>
    intro _ here gap hgap
    have hspelled : (Event.spelled []).toList = [] := by simp [Event.spelled]
    rw [hspelled, List.append_nil, ofText_of_plain here false (not_openBraces_of_not_mem hgap)]
    refine ⟨?_, rfl, by simp⟩
    simp [Cut.events, pieces, Event.ofPieces, trimGap, Event.gathered]
  | cons event rest ih =>
    intro hlegible here gap hgap
    have hrest := ih fun other hmem => hlegible other (by simp [hmem])
    rw [toList_spelled_cons]
    cases hlegible event (by simp) with
    | @text content hne hbrace =>
      rw [← List.append_assoc]
      exact hrest here (gap ++ content.toList) (by simp [hgap, hbrace])
    | @window _ w htext hw hspelling hevents =>
      obtain ⟨hsaid, hclosed, hsupported⟩ :=
        hrest ((here.after gap).after w.spelling) [] (by simp)
      rw [List.nil_append] at hsaid hclosed hsupported
      have hsplit : splitWhere (startsWith openBraces)
          (gap ++ (w.spelling ++ (Event.spelled rest).toList)) =
            some (gap, w.spelling ++ (Event.spelled rest).toList) :=
        splitWhere_append_of_head (by decide) hgap (w.startsWith_spelling _)
      rw [← hspelling, ofText_of_read here false hsplit (Window.read?_spelling hw _),
        hw.notTrimming.2, Event.gathered_of_not_isText gap htext]
      refine ⟨?_, hclosed, ?_⟩
      · rw [← hsaid]
        simp [Cut.events, pieces, Event.ofPieces, trimGap, hw.notTrimming, Window.said, hevents]
      · intro s hs
        rcases List.mem_cons.mp hs with rfl | hs'
        · exact ⟨[event], hevents⟩
        · exact hsupported s hs'

end Cut

namespace Event

theorem exists_of_isText {event : Event} (h : event.isText = true) :
    ∃ content, event = .text content := by
  cases event with
  | text content => exact ⟨content, rfl⟩
  | _ => simp [isText] at h

theorem foldl_push_ofText_of_head (gap : List Char) {row : List Event}
    (h : ∀ event ∈ row.head?, event.isText = false) :
    (ofText gap).foldl push row = (ofText gap).reverse ++ row := by
  unfold ofText
  split
  · rfl
  · rename_i hgap
    have hne : String.ofList gap ≠ "" := by simpa using hgap
    exact push_text_of_head row hne h

/-- Joining does nothing more to texts that were gathered. -/
theorem foldl_push_gathered :
    ∀ (events : List Event) (gap : List Char) (row : List Event),
      (∀ event ∈ row.head?, event.isText = false) →
        (gathered gap events).foldl push row = (gathered gap events).reverse ++ row := by
  intro events
  induction events with
  | nil =>
    intro gap row hrow
    exact foldl_push_ofText_of_head gap hrow
  | cons event rest ih =>
    intro gap row hrow
    by_cases htext : event.isText = true
    · obtain ⟨content, rfl⟩ := exists_of_isText htext
      exact ih (gap ++ content.toList) row hrow
    · rw [Bool.not_eq_true] at htext
      rw [gathered_of_not_isText gap htext, List.foldl_append, List.foldl_cons,
        foldl_push_ofText_of_head gap hrow, push_of_not_isText _ htext,
        ih [] _ (by simp [htext])]
      simp

/-- The open blocks do not see texts. -/
theorem foldlM_take_gathered (limit : Nat) :
    ∀ (events : List Event) (gap : List Char) (shape : Shape),
      (gathered gap events).foldlM (Shape.take limit) shape =
        events.foldlM (Shape.take limit) shape := by
  intro events
  induction events with
  | nil =>
    intro gap shape
    exact Shape.foldlM_take_ofText limit shape gap
  | cons event rest ih =>
    intro gap shape
    by_cases htext : event.isText = true
    · obtain ⟨content, rfl⟩ := exists_of_isText htext
      exact ih (gap ++ content.toList) shape
    · rw [Bool.not_eq_true] at htext
      rw [gathered_of_not_isText gap htext, List.foldlM_append, Shape.foldlM_take_ofText,
        List.foldlM_cons]
      simp only [Option.bind_eq_bind, Option.bind_some, List.foldlM_cons]
      congr 1
      funext next
      exact ih [] next

end Event

/-- A source that spells events has a program, and written out it is these events, if
they leave no block open. -/
theorem exists_program_of_spelled {events : List Event} {limit : Nat}
    (hlegible : ∀ event ∈ events, event.Legible)
    (hshape : events.foldlM (Shape.take limit) [] = some []) :
    ∃ program, parseDirectives (Event.spelled events) limit = .ok program ∧
      Statement.eventsOf program = Event.gathered [] events := by
  obtain ⟨hevents, hclosed, hsupported⟩ :=
    Cut.events_ofText_spelled events hlegible .start [] (by simp)
  rw [List.nil_append] at hevents hclosed hsupported
  have hshape' : (Cut.ofSource (Event.spelled events)).events.foldlM (Shape.take limit) [] =
      some [] := by
    rw [Cut.ofSource, hevents, Event.foldlM_take_gathered, hshape]
  obtain ⟨program, hprogram⟩ := (Cut.exists_program_iff (Event.spelled events) limit).mpr
    ⟨hclosed, hsupported, hshape'⟩
  refine ⟨program, hprogram, ?_⟩
  rw [Cut.eventsOf_program hprogram, Cut.ofSource, hevents, Event.joined,
    Event.foldl_push_gathered events [] [] (by simp)]
  simp

namespace Assembly

/-- **To gather texts makes no difference** to the assembly. -/
theorem run_gathered_alike :
    ∀ (events : List Event), (∀ event ∈ events, event.Legible) →
      ∀ (a : Assembly) (gap : List Char),
        (a.run ((Event.gathered gap events).flatMap Event.operations)).Alike
          (a.run ((Event.ofText gap ++ events).flatMap Event.operations)) := by
  intro events
  induction events with
  | nil =>
    intro _ a gap
    rw [List.append_nil]
    exact Outcome.Alike.refl _
  | cons event rest ih =>
    intro hlegible a gap
    have hrest := ih fun other hmem => hlegible other (by simp [hmem])
    cases hlegible event (by simp) with
    | @text content hne hbrace =>
      refine (hrest a (gap ++ content.toList)).trans ?_
      by_cases hgap : gap = []
      · have hcontent : content.toList ≠ [] := by simpa using hne
        simp [Event.ofText, hgap, hcontent, Outcome.Alike.refl]
      · have hfeed := a.run_feed_append_alike (String.ofList gap) content
          (rest.flatMap Event.operations)
        simpa [Event.ofText, hgap, Event.operations] using hfeed
    | @window _ w htext hw hspelling hevents =>
      rw [Event.gathered_of_not_isText gap htext, List.flatMap_append, List.flatMap_append,
        List.flatMap_cons, List.flatMap_cons, run_append, run_append]
      refine (Outcome.Alike.refl _).andThen fun b => ?_
      rw [run_append, run_append]
      exact (Outcome.Alike.refl _).andThen fun c => hrest c []

end Assembly

/-- **The tree of spelled events** is what the assembly makes of them one after
another. -/
theorem preprocess_spelled {events : List Event} {limit maxDepth : Nat}
    (hlegible : ∀ event ∈ events, event.Legible)
    (hshape : events.foldlM (Shape.take limit) [] = some []) :
    preprocess (Event.spelled events) limit maxDepth =
      ((Assembly.fresh maxDepth).run (events.flatMap Event.operations)).tree := by
  obtain ⟨program, hprogram, hevents⟩ := exists_program_of_spelled hlegible hshape
  rw [preprocess, hprogram]
  simp only [assemble_eq_tree]
  rw [Statement.operationsOf_eq, hevents]
  exact (Assembly.run_gathered_alike events hlegible (Assembly.fresh maxDepth) []).tree_eq

end TemplateTree
