/-
Which rows of tokens make a tree.

Texts, comments and tags that end themselves are taken wherever they stand, so a row of
tokens is accepted or not by its brackets alone, the tags that open an element and those
that close one.  `Balanced` is the grammar of the rows that make a tree, and `Unclosed` the
grammar of those that may still become one: some elements are open, and what stands
between their openings is balanced.  An error is about the first bracket that such a row
cannot take, or about the elements still open at the end of one.

To tokens a stack is no more than the names of its open elements, and `Bracket.take` is the
stack on names.  The grammar and the stack meet there, as for the directives: a row leaves
names open exactly if it is unclosed under them.
-/
import TemplateTree.Proofs.Rendering

namespace TemplateTree

/-- Steps fail in one of them, after those before it went well. -/
theorem exists_of_foldlM_error {α β ε : Type} {step : β → α → Except ε β} {e : ε} :
    ∀ (xs : List α) {b : β}, xs.foldlM step b = .error e →
      ∃ before x after b', xs = before ++ x :: after ∧ before.foldlM step b = .ok b' ∧
        step b' x = .error e := by
  intro xs
  induction xs with
  | nil => intro b h; cases h
  | cons x rest ih =>
    intro b h
    rw [List.foldlM_cons] at h
    cases hstep : step b x with
    | error fault =>
      rw [hstep] at h
      cases h
      exact ⟨[], x, rest, b, rfl, rfl, hstep⟩
    | ok next =>
      rw [hstep] at h
      obtain ⟨before, y, after, b', rfl, hbefore, hy⟩ := ih h
      refine ⟨x :: before, y, after, b', rfl, ?_, hy⟩
      rw [List.foldlM_cons, hstep]
      exact hbefore

/-! ### Rows of brackets -/

/-- What opens an element or closes one, under the name in the tag. -/
inductive Bracket
  | opening (name : String)
  | closing (name : String)

/-- The bracket that a token is.  A start tag that ends itself is none. -/
def Token.bracket? : Token → Option Bracket
  | .startTag tag => if tag.selfClosing then none else some (.opening tag.name)
  | .endTag tag => some (.closing tag.name)
  | .text _ | .comment _ => none

/-- The brackets of a row of tokens. -/
def Token.brackets (tokens : List Token) : List Bracket :=
  tokens.filterMap bracket?

/-- Brackets that are well nested, at most `room` deep: each element is closed under the
name that opened it, in whatever case. -/
inductive Balanced : Nat → List Bracket → Prop
  | nil (room : Nat) : Balanced room []
  | element {room : Nat} {name found : String} {inner : List Bracket}
      (hsame : sameIgnoringCase name found = true) (hinner : Balanced room inner) :
      Balanced (room + 1) (.opening name :: (inner ++ [.closing found]))
  | append {room : Nat} {first second : List Bracket} (hfirst : Balanced room first)
      (hsecond : Balanced room second) : Balanced room (first ++ second)

/-- Brackets that leave the elements `names` open, innermost first, and are balanced
between the openings of those. -/
inductive Unclosed (limit : Nat) : List String → List Bracket → Prop
  | none {row : List Bracket} (h : Balanced limit row) : Unclosed limit [] row
  | opening {names : List String} {outer : List Bracket} (name : String) {room : Nat}
      {inner : List Bracket} (houter : Unclosed limit names outer)
      (hroom : names.length + room + 1 = limit) (hinner : Balanced room inner) :
      Unclosed limit (name :: names) (outer ++ .opening name :: inner)

/-- Why a row of brackets makes no tree.  In the first three cases it is the first bracket
that cannot be taken; what stands before that can. -/
inductive Fault (limit : Nat) (row : List Bracket) : TemplateError → Prop
  /-- An element opens where as many are open as may be. -/
  | tooDeep {before after : List Bracket} {names : List String} {name : String}
      (hrow : row = before ++ .opening name :: after) (hbefore : Unclosed limit names before)
      (hfull : names.length = limit) : Fault limit row (.nestingTooDeep limit)
  /-- An end tag where no element is open. -/
  | unexpected {before after : List Bracket} {found : String}
      (hrow : row = before ++ .closing found :: after) (hbefore : Balanced limit before) :
      Fault limit row (.unexpectedCloseTag found .fragment 0)
  /-- An end tag under another name than that of the innermost element. -/
  | unmatched {before after : List Bracket} {name found : String} {names : List String}
      (hrow : row = before ++ .closing found :: after)
      (hbefore : Unclosed limit (name :: names) before)
      (hname : sameIgnoringCase name found = false) :
      Fault limit row (.unmatchedCloseTag (asciiLower name) found (names.length + 1))
  /-- The row ends, and the innermost of the open elements is named. -/
  | unterminated {name : String} {names : List String} (h : Unclosed limit (name :: names) row) :
      Fault limit row (.unterminatedStructure (.element (asciiLower name)) (names.length + 1))

namespace Bracket

/-- What a bracket does to the names of the open elements, innermost first. -/
def take (limit : Nat) (names : List String) : Bracket → Except TemplateError (List String)
  | .opening name =>
    if limit ≤ names.length then .error (.nestingTooDeep limit) else .ok (name :: names)
  | .closing found =>
    match names with
    | [] => .error (.unexpectedCloseTag found .fragment 0)
    | name :: outer =>
      if sameIgnoringCase name found then .ok outer
      else .error (.unmatchedCloseTag (asciiLower name) found names.length)

variable {limit room : Nat} {names : List String} {row : List Bracket}

/-! ### Rows that leave elements open -/

theorem take_opening (name : String) (hroom : names.length < limit) :
    take limit names (.opening name) = .ok (name :: names) :=
  if_neg (by omega)

theorem foldlM_append_ok {first second : List Bracket} {names' : List String}
    (h : first.foldlM (take limit) names = .ok names') :
    (first ++ second).foldlM (take limit) names = second.foldlM (take limit) names' := by
  rw [List.foldlM_append, h]
  rfl

/-- A balanced row leaves open what was open. -/
theorem foldlM_take_of_balanced (h : Balanced room row) :
    ∀ names : List String, names.length + room ≤ limit →
      row.foldlM (take limit) names = .ok names := by
  induction h with
  | nil room => intro names _; rfl
  | @element room name found inner hsame hinner ih =>
    intro names hroom
    have hopen : [opening name].foldlM (take limit) names = .ok (name :: names) := by
      rw [List.foldlM_cons, take_opening name (by omega)]
      rfl
    have hclose : take limit (name :: names) (.closing found) = .ok names := if_pos hsame
    rw [← List.singleton_append, foldlM_append_ok hopen,
      foldlM_append_ok (ih _ (by simp only [List.length_cons]; omega)), List.foldlM_cons, hclose]
    rfl
  | append hfirst hsecond ihfirst ihsecond =>
    intro names hroom
    rw [foldlM_append_ok (ihfirst names hroom)]
    exact ihsecond names hroom

theorem foldlM_take_of_unclosed (h : Unclosed limit names row) :
    row.foldlM (take limit) [] = .ok names := by
  induction h with
  | none h => exact foldlM_take_of_balanced h [] (by simp)
  | opening name houter hroom hinner ih =>
    rw [foldlM_append_ok ih, List.foldlM_cons, take_opening name (by omega)]
    exact foldlM_take_of_balanced hinner _ (by simp only [List.length_cons]; omega)

end Bracket

namespace Unclosed

variable {limit room : Nat} {names : List String} {row : List Bracket}

theorem length_le (h : Unclosed limit names row) : names.length ≤ limit := by
  cases h with
  | none h => exact Nat.zero_le limit
  | opening name houter hroom hinner =>
    rw [List.length_cons]
    omega

/-- A balanced row may follow. -/
theorem append {more : List Bracket} (h : Unclosed limit names row)
    (hroom : names.length + room = limit) (hmore : Balanced room more) :
    Unclosed limit names (row ++ more) := by
  cases h with
  | none h =>
    simp only [List.length_nil, Nat.zero_add] at hroom
    exact .none (.append h (hroom ▸ hmore))
  | @opening names outer name room' inner houter hroom' hinner =>
    simp only [List.length_cons] at hroom
    have hsame : room = room' := by omega
    rw [List.append_assoc, List.cons_append]
    exact .opening name houter hroom' (.append hinner (hsame ▸ hmore))

/-- A bracket that is taken leaves open what the stack has open then. -/
theorem take {names' : List String} {bracket : Bracket} (h : Unclosed limit names row)
    (htake : bracket.take limit names = .ok names') : Unclosed limit names' (row ++ [bracket]) := by
  cases bracket with
  | opening name =>
    simp only [Bracket.take] at htake
    split at htake
    · cases htake
    · rename_i hroom
      cases htake
      exact .opening name h (by omega) (.nil (limit - names.length - 1))
  | closing found =>
    cases h with
    | none h => cases htake
    | @opening outer before name room inner houter hroom hinner =>
      simp only [Bracket.take] at htake
      split at htake
      · rename_i hsame
        cases htake
        have helement : Balanced (room + 1) (.opening name :: (inner ++ [.closing found])) :=
          .element hsame hinner
        have hall := houter.append (by omega) helement
        simpa using hall
      · cases htake

end Unclosed

namespace Bracket

variable {limit : Nat} {names : List String} {row : List Bracket}

theorem unclosed_of_foldlM_take :
    ∀ (row : List Bracket) {names names' : List String} {before : List Bracket},
      Unclosed limit names before → row.foldlM (take limit) names = .ok names' →
        Unclosed limit names' (before ++ row) := by
  intro row
  induction row with
  | nil =>
    intro names names' before hbefore h
    cases h
    simpa using hbefore
  | cons bracket rest ih =>
    intro names names' before hbefore h
    obtain ⟨next, hnext, hrest⟩ := exists_of_foldlM_cons h
    have hall := ih (hbefore.take hnext) hrest
    simpa using hall

/-- **A row leaves names open exactly if it is unclosed under them.** -/
theorem foldlM_take_eq_ok_iff : row.foldlM (take limit) [] = .ok names ↔ Unclosed limit names row :=
  ⟨fun h => unclosed_of_foldlM_take row (.none (.nil limit)) h, foldlM_take_of_unclosed⟩

/-- Names cannot be taken on exactly if some bracket is not taken, after brackets that
leave names open. -/
theorem foldlM_take_eq_error_iff {e : TemplateError} :
    row.foldlM (take limit) [] = .error e ↔
      ∃ before bracket after names, row = before ++ bracket :: after ∧
        Unclosed limit names before ∧ bracket.take limit names = .error e := by
  constructor
  · intro h
    obtain ⟨before, bracket, after, names, hrow, hbefore, hfault⟩ := exists_of_foldlM_error row h
    exact ⟨before, bracket, after, names, hrow, foldlM_take_eq_ok_iff.mp hbefore, hfault⟩
  · rintro ⟨before, bracket, after, names, rfl, hbefore, hfault⟩
    rw [foldlM_append_ok (foldlM_take_of_unclosed hbefore), List.foldlM_cons, hfault]
    rfl

/-- What comes of a row of brackets: nothing may be open at its end. -/
def verdict (limit : Nat) (row : List Bracket) : Except TemplateError Unit :=
  match row.foldlM (take limit) [] with
  | .ok [] => .ok ()
  | .ok (name :: names) =>
    .error (.unterminatedStructure (.element (asciiLower name)) (names.length + 1))
  | .error e => .error e

/-- **A row passes exactly if it is balanced.** -/
theorem verdict_eq_ok_iff : verdict limit row = .ok () ↔ Balanced limit row := by
  constructor
  · intro h
    unfold verdict at h
    split at h
    · rename_i hrow
      cases foldlM_take_eq_ok_iff.mp hrow with
      | none hbalanced => exact hbalanced
    · cases h
    · cases h
  · intro h
    rw [verdict, foldlM_take_of_unclosed (.none h)]

/-- A bracket that is not taken is at fault. -/
theorem fault_of_take {before after : List Bracket} {bracket : Bracket} {e : TemplateError}
    (hrow : row = before ++ bracket :: after) (hbefore : Unclosed limit names before)
    (htake : bracket.take limit names = .error e) : Fault limit row e := by
  cases bracket with
  | opening name =>
    simp only [take] at htake
    split at htake
    · rename_i hfull
      cases htake
      have hle := hbefore.length_le
      exact .tooDeep hrow hbefore (by omega)
    · cases htake
  | closing found =>
    cases hbefore with
    | none hbalanced =>
      cases htake
      exact .unexpected hrow hbalanced
    | opening name houter hroom hinner =>
      simp only [take] at htake
      split at htake
      · cases htake
      · rename_i hname
        cases htake
        rw [List.length_cons]
        exact .unmatched hrow (.opening name houter hroom hinner) (by simpa using hname)

theorem take_of_fault {e : TemplateError} (h : Fault limit row e) : verdict limit row = .error e := by
  have hfails : ∀ {before after : List Bracket} {bracket : Bracket} {names : List String},
      row = before ++ bracket :: after → Unclosed limit names before →
        bracket.take limit names = .error e → verdict limit row = .error e := by
    intro before after bracket names hrow hbefore htake
    rw [verdict, foldlM_take_eq_error_iff.mpr ⟨before, bracket, after, names, hrow, hbefore, htake⟩]
  cases h with
  | @tooDeep before after names name hrow hbefore hfull => exact hfails hrow hbefore (if_pos hfull.ge)
  | unexpected hrow hbefore => exact hfails hrow (.none hbefore) rfl
  | unmatched hrow hbefore hname => exact hfails hrow hbefore (if_neg (by simp [hname]))
  | unterminated h => rw [verdict, foldlM_take_of_unclosed h]

/-- **What is wrong with a row is its fault.** -/
theorem verdict_eq_error_iff {e : TemplateError} :
    verdict limit row = .error e ↔ Fault limit row e := by
  refine ⟨?_, take_of_fault⟩
  intro h
  unfold verdict at h
  split at h
  · cases h
  · rename_i hrow
    cases h
    exact .unterminated (foldlM_take_eq_ok_iff.mp hrow)
  · rename_i fault hrow
    cases h
    obtain ⟨before, bracket, after, names, hrow, hbefore, hfault⟩ :=
      foldlM_take_eq_error_iff.mp hrow
    exact fault_of_take hrow hbefore hfault

end Bracket

/-! ### Tokens on a stack -/

/-- What a token does to the names of the open elements. -/
def Token.take (limit : Nat) (names : List String) (token : Token) :
    Except TemplateError (List String) :=
  match token.bracket? with
  | none => .ok names
  | some bracket => bracket.take limit names

theorem Token.foldlM_take (limit : Nat) :
    ∀ (tokens : List Token) (names : List String),
      tokens.foldlM (take limit) names = (brackets tokens).foldlM (Bracket.take limit) names := by
  intro tokens
  induction tokens with
  | nil => intro names; rfl
  | cons token rest ih =>
    intro names
    rw [List.foldlM_cons, take, brackets, List.filterMap_cons]
    cases token.bracket? with
    | none => exact ih names
    | some bracket =>
      simp only [List.foldlM_cons]
      congr 1
      funext names'
      exact ih names'

/-- A stack on which the elements `names` are open, innermost first, and nothing else. -/
structure OpenStack.HasOpen (limit : Nat) (names : List String) (s : OpenStack) : Prop where
  maxDepth : s.maxDepth = limit
  opened : s.nodes.map OpenNode.opened = names.map fun name => .element (asciiLower name)

namespace OpenStack.HasOpen

variable {limit : Nat} {names : List String} {s : OpenStack}

theorem depth_eq (h : s.HasOpen limit names) : s.depth = names.length := by
  simpa [depth] using congrArg List.length h.opened

theorem push (h : s.HasOpen limit names) (node : Node) : (s.push node).HasOpen limit names := by
  refine ⟨by rw [maxDepth_push]; exact h.maxDepth, ?_⟩
  rw [← h.opened]
  unfold OpenStack.push
  match s.nodes with
  | [] => rfl
  | .element tag children :: outer => rfl
  | .block expression children none :: outer => rfl
  | .block expression children (some inverse) :: outer => rfl

end OpenStack.HasOpen

/-- An outcome that follows what names come to: it fails in the same way, or leaves a stack
on which those are open. -/
inductive Outcome.Follows (limit : Nat) (lexer : Lexer) :
    Outcome → Except TemplateError (List String) → Prop
  | ok {names : List String} {stack : OpenStack} (h : stack.HasOpen limit names) :
      Follows limit lexer ⟨⟨lexer, stack⟩, none⟩ (.ok names)
  | error (a : Assembly) (e : TemplateError) : Follows limit lexer ⟨a, some e⟩ (.error e)

namespace Assembly

variable {limit : Nat} {names : List String} {a : Assembly}

theorem openElement_follows (h : a.stack.HasOpen limit names) (tag : StartTag) :
    (Outcome.ofStack a (a.stack.openElement tag)).Follows limit a.lexer
      ((Token.startTag tag).take limit names) := by
  unfold OpenStack.openElement Token.take Token.bracket?
  by_cases hself : tag.selfClosing = true
  · simp only [hself, if_true]
    exact .ok (h.push _)
  · simp only [hself, if_false, Bool.false_eq_true, OpenStack.openNode, h.depth_eq, Bracket.take,
      h.maxDepth]
    by_cases hfull : limit ≤ names.length
    · rw [if_pos hfull, if_pos hfull]
      exact .error a _
    · rw [if_neg hfull, if_neg hfull]
      refine .ok ⟨rfl, ?_⟩
      simp [h.opened, OpenNode.opened]

theorem closeElement_follows (h : a.stack.HasOpen limit names) (tag : Tag) :
    (Outcome.ofStack a (a.stack.closeElement tag.name)).Follows limit a.lexer
      ((Token.endTag tag).take limit names) := by
  have hdepth := h.depth_eq
  obtain ⟨hmax, hopened⟩ := h
  show Outcome.Follows limit a.lexer _ (Bracket.take limit names (.closing tag.name))
  unfold OpenStack.closeElement Bracket.take
  match hnodes : a.stack.nodes, names, hopened with
  | [], [], _ =>
    rw [hdepth, OpenStack.opened, hnodes]
    exact .error a _
  | .element start children :: outer, name :: names, hopened =>
    simp only [List.map_cons, OpenNode.opened, List.cons.injEq, Opened.element.injEq] at hopened
    obtain ⟨hname, houter⟩ := hopened
    have hsame : sameIgnoringCase start.name tag.name = sameIgnoringCase name tag.name := by
      rw [sameIgnoringCase, hname, asciiLower_asciiLower, sameIgnoringCase]
    have hrest : OpenStack.HasOpen limit names { a.stack with nodes := outer } := ⟨hmax, houter⟩
    dsimp only
    rw [hsame, hname, hdepth]
    by_cases hmatch : sameIgnoringCase name tag.name = true
    · rw [if_pos hmatch, if_pos hmatch]
      exact .ok (hrest.push _)
    · rw [if_neg hmatch, if_neg hmatch]
      exact .error a _
  | .block expression children inverse :: outer, name :: names, hopened =>
    simp [OpenNode.opened] at hopened

/-- **A token does to a stack what it does to the names on it.** -/
theorem mergeToken_follows (h : a.stack.HasOpen limit names) (token : Token) :
    (a.mergeToken token).Follows limit a.lexer (token.take limit names) := by
  cases token with
  | text content => exact .ok (h.push _)
  | comment content => exact .ok (h.push _)
  | startTag tag => exact openElement_follows h tag
  | endTag tag => exact closeElement_follows h tag

theorem mergeTokens_follows :
    ∀ (tokens : List Token) {a : Assembly} {names : List String}, a.stack.HasOpen limit names →
      (a.mergeTokens tokens).Follows limit a.lexer (tokens.foldlM (Token.take limit) names) := by
  intro tokens
  induction tokens with
  | nil => intro a names h; exact .ok h
  | cons token rest ih =>
    intro a names h
    rw [mergeTokens, List.foldlM_cons]
    have hfirst := mergeToken_follows h token
    generalize a.mergeToken token = o, token.take limit names = result at hfirst
    cases hfirst with
    | @ok names' stack h' => exact @ih ⟨a.lexer, stack⟩ names' h'
    | error a' e => exact .error a' e

/-- With nothing half read, the names that are open at the end decide. -/
theorem finish_of_hasOpen {name : String} {outer : List String}
    (h : a.stack.HasOpen limit (name :: outer)) (hpending : a.lexer.pending = none) :
    a.finish = .error (.unterminatedStructure (.element (asciiLower name)) (outer.length + 1)) := by
  have hdepth := h.depth_eq
  have hopened : a.stack.opened = .element (asciiLower name) := by
    have hnames := h.opened
    unfold OpenStack.opened
    match hnodes : a.stack.nodes with
    | [] => simp [hnodes] at hnames
    | node :: rest =>
      simp only [hnodes, List.map_cons, List.cons.injEq] at hnames
      exact hnames.1
  simp [finish, flushText_of_pending hpending, hpending, hdepth, hopened]

theorem finish_of_hasOpen_nil (h : a.stack.HasOpen limit []) (hpending : a.lexer.pending = none) :
    a.finish = .ok a.stack.root.reverse := by
  have hdepth := h.depth_eq
  simp [finish, flushText_of_pending hpending, hpending, hdepth]

/-- **What comes of tokens is the verdict on their brackets.** -/
theorem tree_mergeTokens {lexer : Lexer} (hpending : lexer.pending = none) (maxDepth : Nat)
    (tokens : List Token) :
    (mergeTokens ⟨lexer, { maxDepth }⟩ tokens).tree.map (fun _ => ()) =
      Bracket.verdict maxDepth (Token.brackets tokens) := by
  have hempty : OpenStack.HasOpen maxDepth [] { maxDepth } := ⟨rfl, rfl⟩
  have hfollows := @mergeTokens_follows maxDepth tokens ⟨lexer, { maxDepth }⟩ [] hempty
  rw [Token.foldlM_take] at hfollows
  unfold Bracket.verdict
  generalize mergeTokens ⟨lexer, { maxDepth }⟩ tokens = o,
    (Token.brackets tokens).foldlM (Bracket.take maxDepth) [] = result at hfollows
  cases hfollows with
  | @ok names stack h =>
    match names, h with
    | [], h => exact congrArg _ (finish_of_hasOpen_nil (a := ⟨lexer, stack⟩) h hpending)
    | name :: outer, h => exact congrArg _ (finish_of_hasOpen (a := ⟨lexer, stack⟩) h hpending)
  | error a e => rfl

end Assembly

/-- **Tokens make a tree exactly if their brackets are balanced** within the limit, and
otherwise the error is the fault of the brackets: the first of them that does not fit, or
the element that is open at the end. -/
theorem exists_tree_iff_balanced (maxDepth : Nat) (state : LexerState) (unread : List Char)
    (tokens : List Token) :
    ((∃ nodes,
        (Assembly.mergeTokens ⟨⟨state, none, unread⟩, { maxDepth }⟩ tokens).tree = .ok nodes) ↔
      Balanced maxDepth (Token.brackets tokens)) ∧
    ∀ e,
      (Assembly.mergeTokens ⟨⟨state, none, unread⟩, { maxDepth }⟩ tokens).tree = .error e ↔
        Fault maxDepth (Token.brackets tokens) e := by
  have hverdict := @Assembly.tree_mergeTokens ⟨state, none, unread⟩ rfl maxDepth tokens
  rw [← Bracket.verdict_eq_ok_iff, ← hverdict]
  refine ⟨?_, ?_⟩
  · cases (Assembly.mergeTokens ⟨⟨state, none, unread⟩, { maxDepth }⟩ tokens).tree with
    | ok nodes => simp [Except.map]
    | error e => simp [Except.map]
  · intro e
    rw [← Bracket.verdict_eq_error_iff, ← hverdict]
    cases (Assembly.mergeTokens ⟨⟨state, none, unread⟩, { maxDepth }⟩ tokens).tree with
    | ok nodes => simp [Except.map]
    | error e => simp [Except.map]

end TemplateTree
