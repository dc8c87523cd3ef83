/-
Two assemblies that differ in their expressions.

If expressions are replaced in what is done to an assembly, the second assembly mirrors the
first one, step by step.  The lexers are in the same place, with tokens in hand that are the
same after the replacement; the stacks have the same sketch; and if one of them fails, the
other one fails for the same reason.

Expressions that are in a comment are text there.  So of each comment, finished or in hand, it
is remembered of which fragments it consists: `rows` are these, for all comments in source
order.  The first assembly has the rows written out, the second one has them written out after
the replacement, and the expressions in them are the ones that came while the lexer was inside
a comment.
-/
import TemplateTree.Proofs.Readings
import TemplateTree.Proofs.Replacement

namespace TemplateTree

/-! ### Comments and what is put into them -/

namespace Fragment

/-- The expression of a fragment that is one. -/
def mustache? : Fragment → Option Mustache
  | .text _ => none
  | .mustache m => some m

/-- What a fragment says where expressions are written out. -/
def written : Fragment → String
  | .text content => content
  | .mustache m => m.text

/-- What fragments say one after another. -/
def writtenRow (row : List Fragment) : String :=
  String.join (row.map written)

/-- The expressions in rows of fragments. -/
def mustachesIn (rows : List (List Fragment)) : List Mustache :=
  rows.flatten.filterMap mustache?

@[simp] theorem writtenRow_append (first second : List Fragment) :
    writtenRow (first ++ second) = writtenRow first ++ writtenRow second := by
  simp [writtenRow]

@[simp] theorem writtenRow_singleton (f : Fragment) : writtenRow [f] = f.written := by
  simp [writtenRow]

@[simp] theorem mustachesIn_append (first second : List (List Fragment)) :
    mustachesIn (first ++ second) = mustachesIn first ++ mustachesIn second := by
  simp [mustachesIn]

end Fragment

/-- The comments of a tree. -/
def Inventory.comments : Inventory String where
  comment content := [content]

/-- The expression that an operation brings, with the state in which the lexer is then. -/
def Operation.placing (state : LexerState) : Operation → List (Mustache × LexerState)
  | .mustache m => [(m, state)]
  | _ => []

/-- The expressions that operations bring, one after another, each with the state in which the
lexer is then. -/
def Assembly.placings : Assembly → List Operation → List (Mustache × LexerState)
  | _, [] => []
  | a, operation :: rest =>
    operation.placing a.lexer.state ++ placings (a.apply operation).assembly rest

/-- Of expressions with states of the lexer, the expressions that come inside a comment. -/
def inComments (placings : List (Mustache × LexerState)) : List Mustache :=
  (placings.filter (·.2.isInComment)).map (·.1)

@[simp] theorem inComments_append (first second : List (Mustache × LexerState)) :
    inComments (first ++ second) = inComments first ++ inComments second := by
  simp [inComments]

namespace Replacement

/-! ### Errors -/

/-- What is open, before and after a replacement. -/
inductive SameOpened (r : Replacement) : Opened → Opened → Prop
  | fragment : SameOpened r .fragment .fragment
  | element (name : String) : SameOpened r (.element name) (.element name)
  | block (expression : Expression) :
    SameOpened r (.block expression.path) (.block (r.expression expression).path)
  | token {t t' : Token} (h : t.describe = t'.describe) : SameOpened r (.token t) (.token t')
  | bracket : SameOpened r .bracket .bracket

/-- An error before and after a replacement: one kind, one depth, one limit, one state. -/
inductive SameError (r : Replacement) : TemplateError → TemplateError → Prop
  | unmatchedCloseTag (expected found : String) (depth : Nat) :
    SameError r (.unmatchedCloseTag expected found depth) (.unmatchedCloseTag expected found depth)
  | unexpectedCloseTag (found : String) {opened opened' : Opened} (h : SameOpened r opened opened')
      (depth : Nat) :
    SameError r (.unexpectedCloseTag found opened depth) (.unexpectedCloseTag found opened' depth)
  | unterminatedStructure {opened opened' : Opened} (h : SameOpened r opened opened')
      (depth : Nat) :
    SameError r (.unterminatedStructure opened depth) (.unterminatedStructure opened' depth)
  | misplacedMustache (m : Mustache) (state : LexerState) :
    SameError r (.misplacedDirective m.text state) (.misplacedDirective (r.mustache m).text state)
  | misplacedBlock (expression : Expression) (state : LexerState) :
    SameError r (.misplacedDirective (blockOpening expression.text) state)
      (.misplacedDirective (blockOpening (r.expression expression).text) state)
  | nestingTooDeep (limit : Nat) : SameError r (.nestingTooDeep limit) (.nestingTooDeep limit)

/-! ### What is in hand -/

/-- A token before and after a replacement, and the fragments of the comment if it is one. -/
inductive MirrorsToken (r : Replacement) : List (List Fragment) → Token → Token → Prop
  | text (content : String) : MirrorsToken r [] (.text content) (.text content)
  | comment (row : List Fragment) :
    MirrorsToken r [row] (.comment (Fragment.writtenRow row))
      (.comment (Fragment.writtenRow (row.map r.fragment)))
  | startTag (tag : StartTag) : MirrorsToken r [] (.startTag tag) (.startTag (r.startTag tag))
  | endTag (tag : Tag) : MirrorsToken r [] (.endTag tag) (.endTag (r.tag tag))

/-- The same of the token in hand, if there is one. -/
inductive MirrorsInHand (r : Replacement) :
    List (List Fragment) → Option Token → Option Token → Prop
  | none : MirrorsInHand r [] none none
  | some {rows : List (List Fragment)} {t t' : Token} (h : r.MirrorsToken rows t t') :
    MirrorsInHand r rows (some t) (some t')

/-- The same of tokens one after another. -/
inductive MirrorsTokens (r : Replacement) :
    List (List Fragment) → List Token → List Token → Prop
  | nil : MirrorsTokens r [] [] []
  | cons {rows more : List (List Fragment)} {t t' : Token} {rest rest' : List Token}
      (h : r.MirrorsToken rows t t') (hrest : MirrorsTokens r more rest rest') :
    MirrorsTokens r (rows ++ more) (t :: rest) (t' :: rest')

/-- Lexers in the same place, before and after a replacement. -/
structure MirrorsLexer (r : Replacement) (rows : List (List Fragment)) (l l' : Lexer) : Prop where
  state : l'.state = l.state
  unread : l'.unread = l.unread
  inHand : r.MirrorsInHand rows l.pending l'.pending

variable {r : Replacement} {rows more : List (List Fragment)} {pending pending' : Option Token}

theorem MirrorsToken.describe_eq {t t' : Token} (h : r.MirrorsToken rows t t') :
    t.describe = t'.describe := by
  cases h <;> rfl

/-- A token without expressions stays as it is. -/
theorem mirrorsToken_token (t : Token) :
    ∃ rows, r.MirrorsToken rows t (r.token t) ∧ Fragment.mustachesIn rows = [] := by
  cases t with
  | text content => exact ⟨[], .text content, rfl⟩
  | comment content =>
    refine ⟨[[.text content]], ?_, rfl⟩
    have hcomment := MirrorsToken.comment (r := r) [.text content]
    simpa [fragment, Fragment.written, token] using hcomment
  | startTag tag => exact ⟨[], .startTag tag, rfl⟩
  | endTag tag => exact ⟨[], .endTag tag, rfl⟩

theorem MirrorsInHand.onTag {change : Tag → Tag} (hkeeps : r.Keeps change)
    (h : r.MirrorsInHand rows pending pending') :
    r.MirrorsInHand rows (Turn.onTag change pending) (Turn.onTag change pending') := by
  cases h with
  | none => exact .none
  | some htoken =>
    cases htoken with
    | text content => exact .some (.text content)
    | comment row => exact .some (.comment row)
    | startTag tag =>
      have hstart := MirrorsToken.startTag (r := r) { tag with toTag := change tag.toTag }
      simp only [startTag, hkeeps tag.toTag] at hstart
      exact .some hstart
    | endTag tag =>
      have hend := MirrorsToken.endTag (r := r) (change tag)
      rw [hkeeps tag] at hend
      exact .some hend

/-- A comment that is added to has one fragment more. -/
theorem MirrorsInHand.addComment (h : r.MirrorsInHand rows pending pending') (text : String) :
    ∃ rows', r.MirrorsInHand rows' (Turn.addComment text pending)
      (Turn.addComment text pending') ∧
        Fragment.mustachesIn rows' = Fragment.mustachesIn rows := by
  cases h with
  | none => exact ⟨[], .none, rfl⟩
  | some htoken =>
    cases htoken with
    | text content => exact ⟨[], .some (.text content), rfl⟩
    | comment row =>
      have hcomment := MirrorsToken.comment (r := r) (row ++ [.text text])
      simp only [List.map_append, List.map_cons, List.map_nil, fragment,
        Fragment.writtenRow_append, Fragment.writtenRow_singleton, Fragment.written] at hcomment
      exact ⟨[row ++ [.text text]], .some hcomment, by
        simp [Fragment.mustachesIn, Fragment.mustache?]⟩
    | startTag tag => exact ⟨[], .some (.startTag tag), rfl⟩
    | endTag tag => exact ⟨[], .some (.endTag tag), rfl⟩

theorem MirrorsInHand.closeSelf (h : r.MirrorsInHand rows pending pending') :
    r.MirrorsInHand rows (Turn.closeSelf pending) (Turn.closeSelf pending') := by
  cases h with
  | none => exact .none
  | some htoken =>
    cases htoken with
    | text content => exact .some (.text content)
    | comment row => exact .some (.comment row)
    | startTag tag => exact .some (.startTag { tag with selfClosing := true })
    | endTag tag => exact .some (.endTag tag)

/-- Where nothing is in hand, nothing is in hand after a replacement. -/
theorem MirrorsInHand.of_none (h : r.MirrorsInHand rows Option.none pending') :
    rows = [] ∧ pending' = Option.none := by
  cases h
  exact ⟨rfl, rfl⟩

/-- **A step changes what is in hand in the same way**, and puts no expression anywhere. -/
theorem MirrorsInHand.edit {state : LexerState} {edit : Option Token → Option Token}
    (h : r.MirrorsInHand rows pending pending') (hfits : state.Fits [] pending)
    (hedit : Lexer.Edits state edit) :
    ∃ rows', r.MirrorsInHand rows' (edit pending) (edit pending') ∧
      Fragment.mustachesIn rows' = Fragment.mustachesIn rows := by
  cases hedit with
  | opensComment hstate =>
    rw [hfits.of_opening (.inr (.inr hstate))] at h
    obtain ⟨rfl, rfl⟩ := h.of_none
    exact ⟨[[]], .some (.comment []), rfl⟩
  | turn hturn =>
    cases hturn with
    | keeps => exact ⟨rows, h, rfl⟩
    | addsText hstate d =>
      rcases hfits.of_text hstate with rfl | ⟨content, rfl⟩
      · obtain ⟨rfl, rfl⟩ := h.of_none
        exact ⟨[], .some (.text _), rfl⟩
      · cases h with
        | some htoken =>
          cases htoken
          exact ⟨[], .some (.text _), rfl⟩
    | addsComment hstate text => exact h.addComment text
    | beginsStartTag =>
      rw [hfits.of_opening (.inl rfl)] at h
      obtain ⟨rfl, rfl⟩ := h.of_none
      exact ⟨[], .some (.startTag _), rfl⟩
    | beginsEndTag =>
      rw [hfits.of_opening (.inr (.inl rfl))] at h
      obtain ⟨rfl, rfl⟩ := h.of_none
      exact ⟨[], .some (.endTag _), rfl⟩
    | addsToName => exact ⟨rows, h.onTag (r.keeps_addToName _), rfl⟩
    | startsAttribute => exact ⟨rows, h.onTag (r.keeps_startAttribute _), rfl⟩
    | addsToAttributeName => exact ⟨rows, h.onTag (r.keeps_addToAttributeName _), rfl⟩
    | addsToAttributeValue hstate => exact ⟨rows, h.onTag (r.keeps_addToAttributeValue _), rfl⟩
    | closesSelf => exact ⟨rows, h.closeSelf, rfl⟩

/-! ### Reading -/

theorem MirrorsInHand.toList (h : r.MirrorsInHand rows pending pending') {tokens tokens' : List Token}
    (htokens : r.MirrorsTokens more tokens tokens') :
    r.MirrorsTokens (rows ++ more) (pending.toList ++ tokens) (pending'.toList ++ tokens') := by
  cases h with
  | none => exact htokens
  | some htoken => exact .cons htoken htokens

/-- **A text is read in the same way.** -/
theorem mirrors_reading {l last : Lexer} {tokens : List Token} (h : l.Reading tokens last) :
    ∀ {rows : List (List Fragment)} {l' : Lexer}, l.Fits [] → r.MirrorsLexer rows l l' →
      ∃ done inHand tokens' last', l'.Reading tokens' last' ∧ r.MirrorsTokens done tokens tokens' ∧
        r.MirrorsLexer inHand last last' ∧
        Fragment.mustachesIn (done ++ inHand) = Fragment.mustachesIn rows := by
  induction h with
  | @stop l h =>
    intro rows l' hfits hmirrors
    obtain ⟨state, pending, unread⟩ := l
    obtain ⟨state', pending', unread'⟩ := l'
    obtain ⟨rfl, rfl, hinHand⟩ := hmirrors
    rcases Lexer.step?_uniform state' unread' with hstop | ⟨move, -, hmove⟩
    · exact ⟨[], rows, [], _, .stop (hstop pending'), .nil, ⟨rfl, rfl, hinHand⟩, rfl⟩
    · simp [hmove pending] at h
  | @step l next last completed tokens h hrest ih =>
    intro rows l' hfits hmirrors
    have hnext := hfits.next h
    obtain ⟨state, pending, unread⟩ := l
    obtain ⟨state', pending', unread'⟩ := l'
    obtain ⟨rfl, rfl, hinHand⟩ := hmirrors
    rcases Lexer.step?_uniform state' unread' with hstop | ⟨move, hmoves, hmove⟩
    · simp [hstop pending] at h
    have hstep' := hmove pending'
    rw [hmove pending] at h
    cases hmoves with
    | @keeps next rest edit hedit =>
      cases h
      obtain ⟨rows', hedited, hsame⟩ := hinHand.edit hfits hedit
      have hmirrors : r.MirrorsLexer rows' ⟨next, edit pending, rest⟩ ⟨next, edit pending', rest⟩ :=
        ⟨rfl, rfl, hedited⟩
      obtain ⟨done, inHand, tokens', last', hreading, htokens, hlast, hrows⟩ := ih hnext hmirrors
      exact ⟨done, inHand, tokens', last', .step hstep' hreading, htokens, hlast,
        hrows.trans hsame⟩
    | @handsOut next rest edit hedit =>
      cases h
      obtain ⟨rows', hedited, hsame⟩ := hinHand.edit hfits hedit
      have hmirrors : r.MirrorsLexer [] ⟨next, none, rest⟩ ⟨next, none, rest⟩ :=
        ⟨rfl, rfl, .none⟩
      obtain ⟨done, inHand, tokens', last', hreading, htokens, hlast, hrows⟩ := ih hnext hmirrors
      refine ⟨rows' ++ done, inHand, _, last', .step hstep' hreading, hedited.toList htokens, hlast,
        ?_⟩
      rw [List.append_assoc, Fragment.mustachesIn_append, hrows, hsame]
      simp [Fragment.mustachesIn]

end Replacement

end TemplateTree
