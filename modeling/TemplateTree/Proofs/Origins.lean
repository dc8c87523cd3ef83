/-
Where the events of a program come from.

`Window.Says` is all that a window can say, each with what it is read from.  A program, written out
from left to right, is what the windows of its source say, with the gaps between them; so an
expression in place, at any level of a program, is what one of the windows says.
-/
import TemplateTree.Proofs.Plain
import TemplateTree.Proofs.Rereading

namespace TemplateTree

namespace Expression

theorem read_of_ofBody {body : List Char} {e : Expression} (h : ofBody body = .ok e) :
    read body = .ok e := by
  unfold ofBody at h
  split at h
  · cases h
    assumption
  · cases h

/-- The path of an expression that was read is one word. -/
theorem isBare_path {text : List Char} {e : Expression} (h : read text = .ok e) :
    IsBare e.path.toList := by
  obtain ⟨words, hread, hwords⟩ := exists_of_bind_ok h
  match words, hwords with
  | ⟨none, .bare path⟩ :: rest, hwords =>
    obtain ⟨⟨params, hash⟩, -, heq⟩ := exists_of_bind_ok hwords
    cases heq
    exact formed_of_readWords hread ⟨none, .bare path⟩ (by simp)
  | ⟨none, .quoted _⟩ :: _, hwords => cases hwords
  | ⟨some _, _⟩ :: _, hwords => cases hwords

end Expression

/-! ### Windows -/

/-- All that a window can say, and what it is read from. -/
inductive Window.Says (w : Window) : List Event → Prop
  | comment : Says w []
  | opening {rest : List Char} {e : Expression} (hread : Expression.read rest = .ok e) :
    Says w [.opening e]
  | inverted {rest : List Char} {e : Expression} (hread : Expression.read rest = .ok e) :
    Says w [.opening e, .otherwise]
  | otherwise : Says w [.otherwise]
  | closing (name : String) : Says w [.closing name]
  | triple {e : Expression} (htriple : w.triple = true)
    (hread : Expression.read (trim w.body) = .ok e) : Says w [.mustache ⟨e, false⟩]
  | ampersand {rest : List Char} {e : Expression} (htriple : w.triple = false)
    (hbody : trim w.body = '&' :: rest) (hread : Expression.read rest = .ok e) :
    Says w [.mustache ⟨e, false⟩]
  | plain {e : Expression} (htriple : w.triple = false)
    (hhead : ∀ c ∈ (trim w.body).head?, c ∉ sigils)
    (helse : trim w.body ≠ "else".toList)
    (hchained : startsWith "else " (trim w.body) = false)
    (hread : Expression.read (trim w.body) = .ok e) : Says w [.mustache ⟨e, true⟩]

theorem Event.exists_of_ofBody {escaped : Bool} {body : List Char} {events : List Event}
    (h : Event.ofBody escaped body = .ok events) :
    ∃ e, Expression.read body = .ok e ∧ events = [.mustache ⟨e, escaped⟩] := by
  obtain ⟨e, hbody, hevents⟩ := exists_of_bind_ok h
  cases hevents
  exact ⟨e, Expression.read_of_ofBody hbody, rfl⟩

/-- **What a window says is one of these.** -/
theorem Window.says_of_events {w : Window} {events : List Event} (h : w.events = .ok events) :
    w.Says events := by
  unfold Window.events at h
  cases htriple : w.triple with
  | true =>
    rw [htriple, if_pos rfl] at h
    obtain ⟨e, hread, rfl⟩ := Event.exists_of_ofBody h
    exact .triple htriple hread
  | false =>
    rw [htriple, if_neg Bool.false_ne_true] at h
    by_cases hhead : ∀ c ∈ (trim w.body).head?, c ∉ sigils
    · rw [plainEvents_of_head hhead] at h
      split at h
      · cases h
        exact .otherwise
      · rename_i helse
        split at h
        · cases h
        · rename_i hchained
          obtain ⟨e, hread, rfl⟩ := Event.exists_of_ofBody h
          exact .plain htriple hhead helse (by simpa using hchained) hread
    · obtain ⟨c, hc, hmark⟩ : ∃ c ∈ (trim w.body).head?, c ∈ sigils := by
        simpa only [not_forall, not_not, exists_prop] using hhead
      obtain ⟨rest, hbody⟩ := List.head?_eq_some_iff.mp hc
      rw [hbody] at h
      simp only [sigils, List.mem_cons, List.not_mem_nil, or_false] at hmark
      rcases hmark with rfl | rfl | rfl | rfl | rfl | rfl
      · cases h
        exact .comment
      · obtain ⟨e, hread, heq⟩ := exists_of_bind_ok h
        cases heq
        exact .opening (Expression.read_of_ofBody hread)
      · simp only [plainEvents] at h
        split at h
        · cases h
          exact .otherwise
        · obtain ⟨e, hread, heq⟩ := exists_of_bind_ok h
          cases heq
          exact .inverted (Expression.read_of_ofBody hread)
      · cases h
        exact .closing _
      · cases h
      · obtain ⟨e, hread, rfl⟩ := Event.exists_of_ofBody h
        exact .ampersand htriple hbody hread

/-! ### Programs -/

namespace Event

variable {event : Event}

/-- To add to a row makes nothing new but texts. -/
theorem mem_push (htext : event.isText = false) {row : List Event} {next : Event}
    (h : event ∈ push row next) : event ∈ row ∨ event = next := by
  have htexts : ∀ text, event ≠ .text text := by
    rintro text rfl
    cases htext
  cases next with
  | text text =>
    by_cases hempty : text = ""
    · rw [hempty, push_text_empty] at h
      exact .inl h
    · cases row with
      | nil => simp [push, hempty, htexts] at h
      | cons first earlier => cases first <;> simp_all [push]
  | _ =>
    rw [push_of_not_isText row rfl] at h
    exact (List.mem_cons.mp h).symm

/-- To join texts makes nothing new but texts. -/
theorem mem_joined (htext : event.isText = false) {events : List Event}
    (h : event ∈ joined events) : event ∈ events := by
  have hfold : ∀ (events row : List Event), event ∈ events.foldl push row →
      event ∈ row ∨ event ∈ events := by
    intro events
    induction events with
    | nil => intro row h; exact .inl h
    | cons next rest ih =>
      intro row h
      rcases ih _ h with hpush | hrest
      · exact (mem_push htext hpush).imp_right fun heq => by simp [heq]
      · exact .inr (by simp [hrest])
  rcases hfold events [] (by simpa [joined] using h) with hnil | hevents
  · cases hnil
  · exact hevents

theorem mem_ofText {text : List Char} (h : event ∈ ofText text) : event.isText = true := by
  unfold ofText at h
  split at h
  · cases h
  · rw [List.mem_singleton.mp h]
    rfl

end Event

/-- **An expression in place is what a window of the source says**, at whatever level of the program
it stands. -/
theorem exists_window_of_mem_program {source : String} {limit : Nat} {program : Program}
    (h : parseDirectives source limit = .ok program) {m : Mustache}
    (hm : .mustache m ∈ Statement.eventsOf program) :
    ∃ s ∈ (Cut.ofSource source).segments, s.window.Says [.mustache m] := by
  rw [Cut.eventsOf_program h] at hm
  have hevents := Event.mem_joined rfl hm
  rw [Cut.events_ofSource, List.mem_append, List.mem_flatMap] at hevents
  rcases hevents with ⟨s, hs, hsaid⟩ | hrest
  · refine ⟨s, hs, ?_⟩
    rcases List.mem_append.mp hsaid with htext | hwindow
    · cases Event.mem_ofText htext
    · unfold Window.said at hwindow
      split at hwindow
      · rename_i events hwindowEvents
        have hsays := Window.says_of_events hwindowEvents
        have hsame : events = [.mustache m] := by
          cases hsays <;> simp_all
        exact hsame ▸ hsays
      · cases hwindow
  · cases Event.mem_ofText hrest

end TemplateTree
