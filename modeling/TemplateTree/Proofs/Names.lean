/-
Names of tags are lower case.

Every way to make a name or to extend it lowers the letters that it adds, so the token
under construction always has a lower name, and with it every token that a lexer hands
out.  It is why an end tag that belongs to an element also has the element's name, letter
by letter, although the two are compared without regard to case.
-/
import TemplateTree.Proofs.Turns

namespace TemplateTree

theorem asciiLower_asciiLower (name : String) : asciiLower (asciiLower name) = asciiLower name := by
  apply String.toList_inj.mp
  simp

theorem asciiLower_push (name : String) (c : Char) :
    asciiLower (name.push c) = (asciiLower name).push c.toLower := by
  apply String.toList_inj.mp
  simp

/-- A name without upper-case letters. -/
def IsLower (name : String) : Prop :=
  asciiLower name = name

theorem isLower_asciiLower (name : String) : IsLower (asciiLower name) :=
  asciiLower_asciiLower name

theorem IsLower.push_toLower {name : String} (h : IsLower name) (c : Char) :
    IsLower (name.push c.toLower) := by
  unfold IsLower at h ⊢
  rw [asciiLower_push, h, Char.toLower_toLower_eq_toLower]

/-- Lower names are the same if they are but for case. -/
theorem IsLower.eq_of_sameIgnoringCase {first second : String} (hfirst : IsLower first)
    (hsecond : IsLower second) (h : sameIgnoringCase first second = true) : first = second := by
  have hsame : asciiLower first = asciiLower second := by simpa [sameIgnoringCase] using h
  rw [← hfirst, ← hsecond, hsame]

/-- A token whose name, if it has one, is lower. -/
def Token.HasLowerName (token : Token) : Prop :=
  ∀ tag ∈ token.tag?, IsLower tag.name

/-- Every token that there is has a lower name. -/
def AllLower (tokens : Option Token) : Prop :=
  ∀ token ∈ tokens, token.HasLowerName

theorem allLower_none : AllLower none := by
  intro token hmem
  cases hmem

theorem allLower_some {token : Token} (h : token.HasLowerName) : AllLower (some token) := by
  intro token' hmem
  rw [← Option.mem_some_iff.mp hmem]
  exact h

theorem Token.hasLowerName_text (content : String) : (Token.text content).HasLowerName := by
  intro tag hmem
  cases hmem

theorem Token.hasLowerName_comment (content : String) : (Token.comment content).HasLowerName := by
  intro tag hmem
  cases hmem

namespace Turn

theorem allLower_addText (c : Char) (pending : Option Token) : AllLower (addText c pending) := by
  unfold addText
  split <;> exact allLower_some (Token.hasLowerName_text _)

theorem allLower_addComment (text : String) {pending : Option Token} (h : AllLower pending) :
    AllLower (addComment text pending) := by
  unfold addComment
  split
  · exact allLower_some (Token.hasLowerName_comment _)
  · exact h

theorem allLower_onTag {change : Tag → Tag} {pending : Option Token} (h : AllLower pending)
    (hchange : ∀ tag : Tag, IsLower tag.name → IsLower (change tag).name) :
    AllLower (onTag change pending) := by
  match pending, h with
  | none, _ => exact allLower_none
  | some token, h =>
    refine allLower_some ?_
    intro tag hmem
    have htoken := h token rfl
    cases token with
    | text content => cases hmem
    | comment content => cases hmem
    | startTag start =>
      rw [← Option.mem_some_iff.mp hmem]
      exact hchange start.toTag (htoken start.toTag rfl)
    | endTag found =>
      rw [← Option.mem_some_iff.mp hmem]
      exact hchange found (htoken found rfl)

theorem allLower_closeSelf {pending : Option Token} (h : AllLower pending) :
    AllLower (closeSelf pending) := by
  unfold closeSelf
  split
  · rename_i start
    refine allLower_some ?_
    intro tag hmem
    rw [← Option.mem_some_iff.mp hmem]
    exact h (.startTag start) rfl start.toTag rfl
  · exact h

/-- A turn after which all names are lower. -/
structure Lower (t : Turn) : Prop where
  pending : AllLower t.pending
  completed : AllLower t.completed

/-- An effect keeps names lower: what it adds to a name, it lowers. -/
theorem allLower_effect {c : Char} {pending pending' : Option Token} (h : AllLower pending)
    (heffect : Effect c pending pending') : AllLower pending' := by
  cases heffect with
  | keeps => exact h
  | addsText d => exact allLower_addText d pending
  | addsComment text => exact allLower_addComment text h
  | beginsStartTag | beginsEndTag =>
    refine allLower_some ?_
    intro tag hmem
    rw [← Option.mem_some_iff.mp hmem]
    exact isLower_asciiLower _
  | addsToName => exact allLower_onTag h fun _ hname => hname.push_toLower c
  | startsAttribute | addsToAttributeName | addsToAttributeValue =>
    exact allLower_onTag h fun _ hname => hname
  | closesSelf => exact allLower_closeSelf h

/-- **A character keeps names lower**, in every state. -/
theorem lower_take (state : LexerState) {pending : Option Token} (c : Char)
    (h : AllLower pending) : (take state pending c).Lower := by
  have hacts := acts_take pending c state
  generalize take state pending c = turn at hacts
  cases hacts with
  | goTo state' heffect | handTo state' heffect => exact ⟨allLower_effect h heffect, allLower_none⟩
  | complete state' heffect => exact ⟨allLower_none, allLower_effect h heffect⟩

end Turn

namespace Lexer

/-- A step keeps names lower. -/
theorem allLower_step? {l next : Lexer} {completed : Option Token} (h : AllLower l.pending)
    (hstep : l.step? = some (completed, next)) :
    AllLower next.pending ∧ AllLower completed := by
  rcases step?_cases hstep with ⟨-, rfl, -, hpending⟩ | ⟨c, rfl, -, hpending⟩
  · rw [hpending]
    exact ⟨allLower_some (Token.hasLowerName_comment _), allLower_none⟩
  · rw [hpending]
    have hturn := Turn.lower_take l.state c h
    exact ⟨hturn.pending, hturn.completed⟩

/-- **A lexer hands out lower names**, and the token under construction keeps one. -/
theorem lower_read {l : Lexer} (h : AllLower l.pending) (text : List Char) :
    AllLower (l.read text).2.pending ∧ ∀ token ∈ (l.read text).1, token.HasLowerName :=
  @read_preserves (fun l => AllLower l.pending) _ allLower_step? l text h

end Lexer

end TemplateTree
