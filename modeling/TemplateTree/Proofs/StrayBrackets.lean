/-
Brackets that open nothing.

A bracket is text if what follows it, past any blanks, begins no markup.  That shows only when
the bracket has ended the text before it and the blanks are gone, so the lexer puts the bracket
back without them, and the text begins anew.  The stack joins the pieces again.  What is left
of a source with such brackets only is therefore one text, and the blanks behind its brackets
are all that it lost: `closedUp` is the source without them.

A bracket may be followed by another one, with blanks in between or without.  Each of them is
then a piece of its own, and so the reading is followed from any text in hand.
-/
import TemplateTree.Proofs.TokenMarkup

namespace TemplateTree

/-- A text without the blanks that stand directly behind its brackets. -/
def closedUp : List Char → List Char
  | [] => []
  | c :: rest =>
    if c = '<' then '<' :: closedUp (rest.dropWhile isMarkupSpace) else c :: closedUp rest
termination_by text => text.length
decreasing_by
  · exact Nat.lt_succ_of_le (List.dropWhile_suffix isMarkupSpace).length_le
  · exact Nat.lt_succ_self _

/-- Behind each bracket, past any blanks, stands a character, and it begins no markup. -/
def BracketsOpenNothing (text : List Char) : Prop :=
  ∀ before rest, text = before ++ '<' :: rest →
    ∃ c ∈ (rest.dropWhile isMarkupSpace).head?, isAsciiLetter c = false ∧ c ≠ '!' ∧ c ≠ '/'

/-- It is enough to look at the ends of the text that begin with a bracket. -/
theorem bracketsOpenNothing_iff {text : List Char} :
    BracketsOpenNothing text ↔ ∀ tail ∈ text.tails, tail.head? = some '<' →
      ∃ c ∈ (tail.tail.dropWhile isMarkupSpace).head?,
        isAsciiLetter c = false ∧ c ≠ '!' ∧ c ≠ '/' := by
  refine ⟨fun h tail htail hhead => ?_, fun h before rest hsplit => ?_⟩
  · obtain ⟨before, rfl⟩ := (List.mem_tails tail text).mp htail
    obtain ⟨rest, rfl⟩ := List.head?_eq_some_iff.mp hhead
    exact h before rest rfl
  · exact h ('<' :: rest) ((List.mem_tails _ _).mpr ⟨before, hsplit.symm⟩) rfl

namespace BracketsOpenNothing

variable {text : List Char} {c : Char}

theorem of_suffix (h : BracketsOpenNothing text) {rest : List Char} (hrest : rest <:+ text) :
    BracketsOpenNothing rest := by
  obtain ⟨earlier, rfl⟩ := hrest
  intro before after hsplit
  exact h (earlier ++ before) after (by rw [hsplit, List.append_assoc])

theorem tail (h : BracketsOpenNothing (c :: text)) : BracketsOpenNothing text :=
  h.of_suffix (List.suffix_cons c text)

/-- What follows a bracket, past the blanks, makes it text. -/
theorem behind (h : BracketsOpenNothing ('<' :: text)) :
    ∃ c rest, text.dropWhile isMarkupSpace = c :: rest ∧ goesOnMarkup c = false := by
  obtain ⟨c, hc, hletter, hmark, hslash⟩ := h [] text rfl
  obtain ⟨rest, hrest⟩ := List.head?_eq_some_iff.mp hc
  have hspace : isMarkupSpace c = false := by
    have hnot := List.head?_dropWhile_not isMarkupSpace text
    rw [hrest] at hnot
    simpa using hnot
  exact ⟨c, rest, hrest, by simp [goesOnMarkup, hletter, hmark, hslash, hspace]⟩

end BracketsOpenNothing

namespace Lexer

/-- Blanks behind a bracket are passed over. -/
theorem passes_blanksBehindBracket {gap : List Char} (h : ∀ c ∈ gap, isMarkupSpace c = true) :
    Passes ⟨.tagOpen, none, []⟩ gap ⟨.tagOpen, none, []⟩ := by
  have htake : ∀ c ∈ gap, ∀ pending, Turn.take .tagOpen pending c = Turn.goTo .tagOpen pending := by
    intro c hc pending
    have hmark : c ≠ '!' := by
      rintro rfl
      exact absurd (h _ hc) (by decide)
    have hslash : c ≠ '/' := by
      rintro rfl
      exact absurd (h _ hc) (by decide)
    show Turn.tagOpen pending c = _
    simp [Turn.tagOpen, hmark, hslash, h c hc]
  exact passes_over (by decide) htake none

/-- **A bracket that opens nothing begins a text**, without the blanks behind it. -/
theorem read_behindBracket {text : List Char} (h : BracketsOpenNothing ('<' :: text)) :
    read ⟨.tagOpen, none, []⟩ text =
      read ⟨.data, some (.text "<"), []⟩ (text.dropWhile isMarkupSpace) := by
  obtain ⟨c, rest, hrest, hopens⟩ := h.behind
  have hgap := passes_blanksBehindBracket fun c (hc : c ∈ text.takeWhile isMarkupSpace) =>
    List.mem_takeWhile_imp hc
  rw [hrest, ← read_of_opensNothing hopens, ← hrest]
  conv_lhs => rw [← List.takeWhile_append_dropWhile (p := isMarkupSpace) (l := text)]
  rw [read_append, hgap]
  rfl

/-- **With a text in hand, brackets that open nothing are read as texts**, which make up the text
that was in hand with what is left of the source behind it. -/
theorem read_strays (text : List Char) :
    BracketsOpenNothing text → ∀ before : String, ∃ (done : List String) (last : String),
      read ⟨.data, some (.text before), []⟩ text =
          (done.map Token.text, ⟨.data, some (.text last), []⟩) ∧
        String.join done ++ last = before ++ String.ofList (closedUp text) := by
  induction text using closedUp.induct with
  | case1 =>
    intro _ before
    exact ⟨[], before, passes_nil _ _, by simp [closedUp]⟩
  | case2 rest ih =>
    intro h before
    obtain ⟨done, last, hread, hjoin⟩ :=
      ih (h.tail.of_suffix (List.dropWhile_suffix isMarkupSpace)) "<"
    refine ⟨before :: done, last, ?_, ?_⟩
    · have hbracket : read ⟨.data, some (.text before), []⟩ ['<'] =
          ([.text before], ⟨.tagOpen, none, []⟩) := read_of_complete (by decide) rfl
      rw [← List.singleton_append, read_append, hbracket, read_behindBracket h, hread]
      rfl
    · rw [String.join_cons, String.append_assoc, hjoin]
      apply String.toList_inj.mp
      simp [closedUp]
  | case3 c rest hc ih =>
    intro h before
    obtain ⟨done, last, hread, hjoin⟩ := ih h.tail (before.push c)
    refine ⟨done, last, ?_, ?_⟩
    · have hturn : Turn.take .data (some (.text before)) c =
          Turn.goTo .data (some (.text (before.push c))) := if_neg hc
      have hfirst := passes_singleton (by decide) hturn
      rw [← List.singleton_append, read_append, hfirst, hread]
      rfl
    · rw [hjoin]
      apply String.toList_inj.mp
      simp [closedUp, hc]

/-- The same with nothing in hand, if there is something to read. -/
theorem read_strays_of_nothing {text : List Char} (h : BracketsOpenNothing text) (hne : text ≠ []) :
    ∃ (done : List String) (last : String),
      read {} text = (done.map Token.text, ⟨.data, some (.text last), []⟩) ∧
        String.join done ++ last = String.ofList (closedUp text) := by
  obtain ⟨c, rest, rfl⟩ := List.exists_cons_of_ne_nil hne
  by_cases hc : c = '<'
  · subst hc
    obtain ⟨done, last, hread, hjoin⟩ :=
      read_strays _ (h.tail.of_suffix (List.dropWhile_suffix isMarkupSpace)) "<"
    refine ⟨done, last, ?_, ?_⟩
    · have hbracket : read {} ['<'] = ([], ⟨.tagOpen, none, []⟩) :=
        passes_singleton (by decide) rfl
      rw [← List.singleton_append, read_append, hbracket, read_behindBracket h, hread]
      rfl
    · rw [hjoin]
      apply String.toList_inj.mp
      simp [closedUp]
  · obtain ⟨done, last, hread, hjoin⟩ := read_strays rest h.tail c.toString
    refine ⟨done, last, ?_, ?_⟩
    · have hturn : Turn.take .data none c = Turn.goTo .data (some (.text c.toString)) := if_neg hc
      have hfirst : Passes {} [c] ⟨.data, some (.text c.toString), []⟩ :=
        passes_singleton (by decide) hturn
      rw [← List.singleton_append, read_append, hfirst, hread]
      rfl
    · rw [hjoin]
      apply String.toList_inj.mp
      simp [closedUp, hc]

end Lexer

/-! ### On a stack -/

namespace Assembly

/-- **Texts that come one after another are one text.** -/
theorem mergeTokens_texts (a : Assembly) (done : List String) :
    ∃ stack, a.mergeTokens (done.map Token.text) = ⟨{ a with stack }, none⟩ ∧
      ∀ last : String,
        stack.push (.text last) = a.stack.push (.text (String.join done ++ last)) := by
  induction done generalizing a with
  | nil => exact ⟨a.stack, rfl, by simp⟩
  | cons first rest ih =>
    obtain ⟨stack, hmerge, hpush⟩ := ih { a with stack := a.stack.push (.text first) }
    refine ⟨stack, hmerge, fun last => ?_⟩
    rw [hpush, OpenStack.push_text_text, String.join_cons, String.append_assoc]

end Assembly

/-- **What becomes of brackets that open nothing.**  A source without directives, in which no
bracket opens anything, is one text, and none if it is empty.  The blanks directly behind its
brackets are gone, and nothing else is lost, added or moved. -/
theorem preprocess_of_strayBrackets {source : String}
    (hplain : ¬ openBraces.toList <:+: source.toList) (h : BracketsOpenNothing source.toList)
    (limit maxDepth : Nat) :
    preprocess source limit maxDepth =
      .ok (if source = "" then [] else [.text (String.ofList (closedUp source.toList))]) := by
  rw [preprocess, parseDirectives_of_plain hplain]
  simp only [assemble_eq_tree]
  split
  · rename_i hempty
    rw [hempty]
    rfl
  · rename_i hne
    obtain ⟨done, last, hread, hjoin⟩ := Lexer.read_strays_of_nothing h (by simpa using hne)
    obtain ⟨stack, hmerge, hpush⟩ := (Assembly.fresh maxDepth).mergeTokens_texts done
    have hfeed : (Assembly.fresh maxDepth).feed source =
        ⟨⟨⟨.data, some (.text last), []⟩, stack⟩, none⟩ := by
      rw [Assembly.feed_eq_mergeTokens, show (Assembly.fresh maxDepth).lexer = {} from rfl, hread,
        hmerge]
      rfl
    have hrun : (Assembly.fresh maxDepth).run
        (Statement.operationsOf (Statement.pushText source [])) =
          (Assembly.fresh maxDepth).feed source := by
      simp [Statement.pushText, hne, Statement.operationsOf, Statement.operations,
        Assembly.run_singleton, Assembly.apply]
    rw [hrun, hfeed]
    have hlast := hpush last
    rw [hjoin] at hlast
    simp only [Outcome.tree, Assembly.finish, Assembly.flushText, Lexer.takeText, hlast]
    rfl

/-- Brackets at the beginning, one behind the other and with blanks of two kinds behind them; the
blanks before a bracket stay. -/
theorem preprocess_of_strayBrackets_in_comparison :
    ¬ openBraces.toList <:+: "<\t< 3  < \n= 4".toList ∧
      BracketsOpenNothing "<\t< 3  < \n= 4".toList ∧
      preprocess "<\t< 3  < \n= 4" 1 1 = .ok [.text "<<3  <= 4"] := by
  have hplain : ¬ openBraces.toList <:+: "<\t< 3  < \n= 4".toList := by decide
  have hstray : BracketsOpenNothing "<\t< 3  < \n= 4".toList := by
    rw [bracketsOpenNothing_iff]
    simp [isMarkupSpace, isAsciiLetter]
  have htext : closedUp "<\t< 3  < \n= 4".toList = "<<3  <= 4".toList := by
    simp [closedUp, isMarkupSpace]
  refine ⟨hplain, hstray, ?_⟩
  rw [preprocess_of_strayBrackets hplain hstray, htext]
  rfl

end TemplateTree
