/-
A value has what the source has, in its order.

The value of an attribute comes about in two ways at once.  The lexer adds to it a character
at a time, and between two pieces of text an expression is added to it from outside.  Both
look at no more than the last fragment, so what they make of a row of pieces can be told
without either: `Continues` says that the characters and expressions of a value are those it
had and those of the pieces, that no text in it is empty, and that no two texts in it are
side by side.  There is only one such value.

As long as no piece has a character in it that ends the value, this is all that happens.  No
token is completed, so the stack is left alone, and the state stays as it is, but for an
expression right after the equals sign, which begins a value without quotes.
-/
import TemplateTree.Proofs.Composition
import TemplateTree.Proofs.InHand

namespace TemplateTree

/-! ### What a value says -/

namespace Fragment

/-- The characters and expressions that a fragment consists of. -/
def items : Fragment → List (Char ⊕ Mustache)
  | text content => content.toList.map .inl
  | mustache m => [.inr m]

/-- A value and the value that it becomes with some pieces after it.  Text that meets text is one
fragment with it, the text at the end of the old value included; an expression is always one of
its own. -/
structure Continues (value pieces value' : List Fragment) : Prop where
  items : value'.flatMap items = value.flatMap items ++ pieces.flatMap items
  noEmpty : .text "" ∉ value'
  apart : value'.IsChain Apart

/-- After a text there is an expression, or the end. -/
theorem head?_items_of_apart {content : String} {rest : List Fragment}
    (h : (text content :: rest).IsChain Apart) :
    ∀ item ∈ (rest.flatMap items).head?, item.isLeft = false := by
  intro item hitem
  cases rest with
  | nil => simp at hitem
  | cons f more =>
    have hapart := (List.isChain_cons_cons.mp h).1
    cases f with
    | text next => exact absurd ⟨rfl, rfl⟩ hapart
    | mustache m =>
      obtain rfl : .inr m = item := by simpa [items] using hitem
      rfl

/-- Texts that are followed by no text are told apart by what follows them. -/
theorem text_eq_of_items {first second : String} {rest rest' : List Fragment}
    (h : (text first :: rest).IsChain Apart) (h' : (text second :: rest').IsChain Apart)
    (heq : (text first :: rest).flatMap items = (text second :: rest').flatMap items) :
    first = second ∧ rest.flatMap items = rest'.flatMap items := by
  have hleft : ∀ content : String, ∀ item ∈ (text content).items, item.isLeft = true := by
    simp [items]
  obtain ⟨htake, hdrop⟩ :=
    Expression.takeWhile_append_of_ends (hleft first) (head?_items_of_apart h)
  obtain ⟨htake', hdrop'⟩ :=
    Expression.takeWhile_append_of_ends (hleft second) (head?_items_of_apart h')
  rw [List.flatMap_cons, List.flatMap_cons] at heq
  rw [heq] at htake hdrop
  have hsame : (text first).items = (text second).items := htake.symm.trans htake'
  refine ⟨String.toList_inj.mp ?_, hdrop.symm.trans hdrop'⟩
  exact List.map_injective_iff.mpr Sum.inl_injective hsame

/-- **Values without empty texts and without texts side by side are told apart by what they
say.** -/
theorem eq_of_items :
    ∀ {value value' : List Fragment}, text "" ∉ value → text "" ∉ value' →
      value.IsChain Apart → value'.IsChain Apart →
        value.flatMap items = value'.flatMap items → value = value' := by
  have hne : ∀ {f : Fragment} {rest : List Fragment}, text "" ∉ f :: rest →
      (f :: rest).flatMap items ≠ [] := by
    intro f rest h
    cases f with
    | text content =>
      have hcontent : content ≠ "" := fun heq => h (heq ▸ List.mem_cons_self)
      simp [items, hcontent]
    | mustache m => simp [items]
  intro value
  induction value with
  | nil =>
    intro value' _ hempty' _ _ heq
    cases value' with
    | nil => rfl
    | cons f' rest' => exact absurd heq.symm (hne hempty')
  | cons f rest ih =>
    intro value' hempty hempty' hapart hapart' heq
    cases value' with
    | nil => exact absurd heq (hne hempty)
    | cons f' rest' =>
      have hrest : rest.flatMap items = rest'.flatMap items → rest = rest' :=
        ih (fun hmem => hempty (List.mem_cons_of_mem f hmem))
          (fun hmem => hempty' (List.mem_cons_of_mem f' hmem)) hapart.tail hapart'.tail
      match f, f' with
      | text first, text second =>
        obtain ⟨rfl, hlater⟩ := text_eq_of_items hapart hapart' heq
        rw [hrest hlater]
      | mustache m, mustache m' =>
        obtain ⟨hm, hlater⟩ := List.cons.inj heq
        rw [Sum.inr.inj hm, hrest hlater]
      | text content, mustache m =>
        cases hcontent : content.toList with
        | nil => exact absurd List.mem_cons_self (String.toList_eq_nil_iff.mp hcontent ▸ hempty)
        | cons c more => simp [items, hcontent] at heq
      | mustache m, text content =>
        cases hcontent : content.toList with
        | nil => exact absurd List.mem_cons_self (String.toList_eq_nil_iff.mp hcontent ▸ hempty')
        | cons c more => simp [items, hcontent] at heq

/-- There is one way for a value to go on. -/
theorem Continues.unique {value pieces first second : List Fragment}
    (h₁ : Continues value pieces first) (h₂ : Continues value pieces second) : first = second :=
  eq_of_items h₁.noEmpty h₂.noEmpty h₁.apart h₂.apart (h₁.items.trans h₂.items.symm)

end Fragment

namespace Attribute

/-- Adds a piece to the value. -/
def pushPiece (a : Attribute) : Fragment → Attribute
  | .text content => a.pushText content
  | .mustache m => a.pushMustache m

variable {a : Attribute}

@[simp] theorem name_pushPiece (a : Attribute) (f : Fragment) : (a.pushPiece f).name = a.name := by
  cases f with
  | text content => exact name_pushText a content
  | mustache m => rfl

theorem items_pushPiece (a : Attribute) (f : Fragment) :
    (a.pushPiece f).value.flatMap Fragment.items = a.value.flatMap Fragment.items ++ f.items := by
  cases f with
  | mustache m => simp [pushPiece, pushMustache]
  | text content =>
    rw [pushPiece, pushText]
    split
    · rename_i hempty
      simp [hempty, Fragment.items]
    · rcases Fragment.join_cases content a.value with ⟨earlier, last, hvalue, hjoin⟩ | ⟨-, hjoin⟩
      · simp only [hjoin]
        simp [hvalue, Fragment.items]
      · simp [hjoin]

theorem WellFormed.pushPiece (h : a.WellFormed) (f : Fragment) : (a.pushPiece f).WellFormed := by
  cases f with
  | mustache m => exact h.pushMustache m
  | text content =>
    by_cases hempty : content = ""
    · rw [hempty, Attribute.pushPiece, pushText_empty]
      exact h
    · exact h.pushText hempty

/-- **Pieces that are added one by one continue the value**, and nothing else of the attribute is
changed. -/
theorem continues_pushPieces :
    ∀ (pieces : List Fragment) {a : Attribute}, a.WellFormed →
      ∃ value, pieces.foldl pushPiece a = { a with value } ∧
        Fragment.Continues a.value pieces value := by
  intro pieces
  induction pieces with
  | nil =>
    intro a h
    exact ⟨a.value, rfl, by simp, h.value, h.apart⟩
  | cons f rest ih =>
    intro a h
    obtain ⟨value, hfold, hitems, hempty, hapart⟩ := ih (h.pushPiece f)
    refine ⟨value, ?_, ?_, hempty, hapart⟩
    · rw [List.foldl_cons, hfold, name_pushPiece]
    · rw [hitems, items_pushPiece, List.append_assoc, List.flatMap_cons]

end Attribute

/-! ### Inside a value -/

/-- Does a character end the value that is read in a state?  In other states no value is. -/
def LexerState.endsValue (c : Char) : LexerState → Bool
  | attributeValueDoubleQuoted => c == '\"'
  | attributeValueSingleQuoted => c == '\''
  | attributeValueUnquoted => isMarkupSpace c || c == '>'
  | _ => true

/-- Any other character is added to the value, and nothing else happens. -/
theorem Turn.take_of_not_endsValue {state : LexerState} {c : Char}
    (h : state.endsValue c = false) (pending : Option Token) :
    take state pending c = goTo state (onTag (·.addToAttributeValue c) pending) := by
  cases state with
  | attributeValueDoubleQuoted | attributeValueSingleQuoted =>
    simp only [LexerState.endsValue, beq_eq_false_iff_ne] at h
    simp [take, quotedValue, h]
  | attributeValueUnquoted =>
    simp only [LexerState.endsValue, Bool.or_eq_false_iff, beq_eq_false_iff_ne] at h
    simp [take, unquotedValue, h]
  | _ => cases h

/-- A piece of a value as it arrives: text is read by the lexer, an expression is put in its
place. -/
def Fragment.operation : Fragment → Operation
  | .text content => .feed content
  | .mustache m => .mustache m

/-- A piece in which no character ends the value that is read in a state. -/
def Fragment.StaysIn (state : LexerState) : Fragment → Prop
  | .text content => ∀ c ∈ content.toList, state.endsValue c = false
  | .mustache _ => True

namespace Assembly

variable {s : OpenStack} {state : LexerState} {tag : StartTag} {earlier : List Attribute}
  {last : Attribute}

/-- Text in a value is read without completing a token. -/
theorem passes_piece (hstate : state.isInAttributeValue = true)
    (hlast : tag.attributes = earlier ++ [last]) {content : String}
    (hstays : (Fragment.text content).StaysIn state) :
    Lexer.Passes (inTag s state tag).lexer content.toList
      (inTag s state { tag with attributes := earlier ++ [last.pushText content] }).lexer := by
  refine Lexer.passes_value ?_ hlast fun c hc => Turn.take_of_not_endsValue (hstays c hc)
  rintro rfl
  cases hstate

/-- **A piece is added to the value**, and nothing else is changed. -/
theorem apply_piece (hstate : state.isInAttributeValue = true)
    (hlast : tag.attributes = earlier ++ [last]) {f : Fragment} (hstays : f.StaysIn state)
    (hbegun : ∀ m, f = .mustache m → valueState state = state) :
    (inTag s state tag).apply f.operation =
      ⟨inTag s state { tag with attributes := earlier ++ [last.pushPiece f] }, none⟩ := by
  cases f with
  | text content =>
    show (inTag s state tag).feed content = _
    rw [feed_eq_mergeTokens, passes_piece hstate hlast hstays]
    rfl
  | mustache m =>
    show (inTag s state tag).mergeMustache m = _
    rw [mergeMustache_inTag hstate hlast, hbegun m rfl]
    rfl

/-- What comes of a row of operations in a value: the value goes on as it should. -/
theorem run_pieces (hstate : state.isInAttributeValue = true) (hbegun : valueState state = state) :
    ∀ (pieces : List Fragment), (∀ f ∈ pieces, f.StaysIn state) →
      ∀ (tag : StartTag) (last : Attribute), tag.attributes = earlier ++ [last] →
        (inTag s state tag).run (pieces.map Fragment.operation) =
          ⟨inTag s state
            { tag with attributes := earlier ++ [pieces.foldl Attribute.pushPiece last] }, none⟩ := by
  intro pieces
  induction pieces with
  | nil =>
    intro _ tag last hlast
    rw [List.foldl_nil, ← hlast]
    rfl
  | cons f rest ih =>
    intro hstays tag last hlast
    have hfirst := apply_piece (s := s) hstate hlast (hstays f List.mem_cons_self) fun _ _ => hbegun
    have hrest := ih (fun g hg => hstays g (List.mem_cons_of_mem f hg))
      { tag with attributes := earlier ++ [last.pushPiece f] } _ rfl
    rw [List.map_cons, run, hfirst]
    exact hrest

/-- Where no value has begun, pieces begin one with an expression. -/
def BeginsValue (state : LexerState) (pieces : List Fragment) : Prop :=
  state = .beforeAttributeValue → ∃ m rest, pieces = .mustache m :: rest

/-- **A row of pieces is added to the value**, and all else of the tag, the lexer and the stack is
as it was. -/
theorem run_value (hstate : state.isInAttributeValue = true)
    (hlast : tag.attributes = earlier ++ [last]) {pieces : List Fragment}
    (hbegins : BeginsValue state pieces)
    (hstays : ∀ f ∈ pieces, f.StaysIn (valueState state)) :
    (inTag s state tag).run (pieces.map Fragment.operation) =
      ⟨inTag s (valueState state)
        { tag with attributes := earlier ++ [pieces.foldl Attribute.pushPiece last] }, none⟩ := by
  by_cases hbefore : state = .beforeAttributeValue
  · obtain ⟨m, rest, rfl⟩ := hbegins hbefore
    subst hbefore
    have hbegun : LexerState.attributeValueUnquoted.isInAttributeValue = true := rfl
    have hrest := run_pieces (s := s) hbegun rfl rest
      (fun f hf => hstays f (List.mem_cons_of_mem _ hf))
      { tag with attributes := earlier ++ [last.pushMustache m] } _ rfl
    have hfirst : (inTag s .beforeAttributeValue tag).apply (.mustache m) = _ :=
      mergeMustache_inTag hstate hlast m
    rw [List.map_cons, run, Fragment.operation, hfirst]
    exact hrest
  · have hsame : valueState state = state := if_neg hbefore
    rw [hsame] at hstays ⊢
    exact run_pieces hstate hsame pieces hstays tag last hlast

end Assembly

/-! ### Values under construction -/

/-- A lexer between two calls, whatever they were, and with any stack at each of them. -/
inductive Lexer.AtRest : Lexer → Prop
  | fresh : AtRest {}
  | feed {l : Lexer} (h : AtRest l) (text : String) : AtRest (l.feed text).2
  | takeText {l : Lexer} (h : AtRest l) : AtRest l.takeText.2
  /-- An operation on the lexer and a stack, whether it fails or not. -/
  | apply {a : Assembly} (h : AtRest a.lexer) (operation : Operation) :
      AtRest (a.apply operation).assembly.lexer

/-- Between two calls a lexer has in hand what fits its state, and has read what it can. -/
theorem Lexer.AtRest.resting {l : Lexer} (h : l.AtRest) (s : OpenStack) :
    Assembly.Resting ⟨l, s⟩ := by
  induction h generalizing s with
  | fresh => exact ⟨LexerState.Fits.data, fun _ => rfl⟩
  | feed h text ih => exact ⟨(fits_read (ih s).fits text.toList).1, idle_read _ text.toList⟩
  | @takeText l h ih =>
    refine ⟨(ih s).fits.takeText.1, ?_⟩
    have hidle : l.Idle := (ih s).idle
    show Idle _
    unfold Lexer.takeText
    split
    · exact hidle
    · exact hidle
  | @apply a h operation ih =>
    have hresting : a.Resting := ih a.stack
    exact ⟨(hresting.apply operation).fits, (hresting.apply operation).idle⟩

/-- In the value of a start tag there is nothing left to read, and an attribute to go on with. -/
theorem Lexer.AtRest.inTag {a : Assembly} (h : a.lexer.AtRest) {tag : StartTag}
    (hpending : a.lexer.pending = some (.startTag tag))
    (hstate : a.lexer.state.isInAttributeValue = true) :
    a = Assembly.inTag a.stack a.lexer.state tag ∧
      ∃ earlier last, tag.attributes = earlier ++ [last] ∧ last.WellFormed := by
  obtain ⟨⟨state, pending, unread⟩, s⟩ := a
  obtain ⟨hfits, hidle⟩ := h.resting s
  simp only at hpending hstate
  subst hpending
  obtain ⟨-, htag, hfinishes⟩ := LexerState.Fits.of_startTag hfits
  have hunread : unread = [] := hidle (by rintro rfl; cases hstate)
  subst hunread
  have hne := hfinishes.ne_nil (.inr (.inl hstate))
  refine ⟨rfl, tag.attributes.dropLast, tag.attributes.getLast hne,
    (List.dropLast_append_getLast hne).symm, ?_⟩
  exact htag.attributes _ (List.getLast_mem hne)

namespace Assembly

/-- **The value of an attribute has what the source has, in its order.**  Pieces that arrive in a
value, as text in which no character ends it and as expressions, go to its end, and texts that meet
there are one.  There is only one such value.  Nothing fails and no token is completed, and nothing
else is changed; but right after the equals sign, an expression begins a value without quotes. -/
theorem run_value_continues (a : Assembly) (h : a.lexer.AtRest) (tag : StartTag)
    (hpending : a.lexer.pending = some (.startTag tag))
    (hstate : a.lexer.state.isInAttributeValue = true) (pieces : List Fragment)
    (hbegins : BeginsValue a.lexer.state pieces)
    (hstays : ∀ f ∈ pieces, f.StaysIn
      (if a.lexer.state = .beforeAttributeValue then .attributeValueUnquoted
        else a.lexer.state)) :
    ∃ earlier last value, tag.attributes = earlier ++ [last] ∧
      Fragment.Continues last.value pieces value ∧
      (∀ other, Fragment.Continues last.value pieces other → other = value) ∧
      a.run (pieces.map Fragment.operation) =
        ⟨{ a with lexer := { a.lexer with
            state := if a.lexer.state = .beforeAttributeValue then .attributeValueUnquoted
              else a.lexer.state
            pending := some (.startTag { tag with
              attributes := earlier ++ [{ last with value }] }) } }, none⟩ ∧
      ∀ before content after, pieces = before ++ .text content :: after →
        ((a.run (before.map Fragment.operation)).assembly.lexer.feed content).1 = [] := by
  replace hstays : ∀ f ∈ pieces, f.StaysIn (valueState a.lexer.state) := hstays
  obtain ⟨ha, earlier, last, hlast, hformed⟩ := h.inTag hpending hstate
  obtain ⟨value, hfold, hcontinues⟩ := Attribute.continues_pushPieces pieces hformed
  refine ⟨earlier, last, value, hlast, hcontinues, fun other hother => hother.unique hcontinues,
    ?_, ?_⟩
  · have hrun := run_value (s := a.stack) hstate hlast hbegins hstays
    rw [← ha, hfold] at hrun
    rw [hrun, inTag, ha]
    rfl
  · rintro before content after rfl
    have hfirst : BeginsValue a.lexer.state before := by
      intro hbefore
      obtain ⟨m, rest, heq⟩ := hbegins hbefore
      cases before with
      | nil => cases heq
      | cons f more => exact ⟨m, more, by rw [(List.cons.inj heq).1]⟩
    have hrun := run_value (s := a.stack) hstate hlast hfirst
      fun f hf => hstays f (List.mem_append_left _ hf)
    have hvalue : (valueState a.lexer.state).isInAttributeValue = true := by
      unfold valueState
      split
      · rfl
      · exact hstate
    have hlater : ({ tag with attributes := earlier ++ [before.foldl Attribute.pushPiece last] } :
        StartTag).attributes = earlier ++ [before.foldl Attribute.pushPiece last] := rfl
    have hpasses := passes_piece (s := a.stack) hvalue hlater (hstays (.text content) (by simp))
    rw [← ha] at hrun
    rw [hrun]
    exact congrArg Prod.fst hpasses

/-- Text goes on in the text that was there, an expression comes between, and a quote of the other
kind and an empty text make no difference to that. -/
theorem run_value_continues_in_single_quotes :
    ∃ (a : Assembly) (tag : StartTag) (m : Mustache),
      a.lexer.AtRest ∧ a.lexer.pending = some (.startTag tag) ∧
      tag.attributes = [⟨"a", [.text "x"]⟩] ∧
      a.lexer.state = .attributeValueSingleQuoted ∧
      a.run [.feed "y", .mustache m, .mustache m, .feed "", .feed " \"", .feed ">"] =
        ⟨{ a with lexer := { a.lexer with pending := some (.startTag { tag with
            attributes := [⟨"a", [.text "xy", .mustache m, .mustache m, .text " \">"]⟩] }) } },
          none⟩ := by
  have hrest : (Lexer.feed {} "<p a='x").2.AtRest := .feed .fresh _
  have hread : (Lexer.feed {} "<p a='x").2 = ⟨.attributeValueSingleQuoted,
      some (.startTag { name := "p", attributes := [⟨"a", [.text "x"]⟩] }), []⟩ := by
    cbv
  rw [hread] at hrest
  let m : Mustache := ⟨⟨"b", [], []⟩, true⟩
  obtain ⟨earlier, last, value, hlast, -, hunique, hrun, -⟩ :=
    run_value_continues ⟨_, { maxDepth := 0 }⟩ hrest _ rfl rfl
      [.text "y", .mustache m, .mustache m, .text "", .text " \"", .text ">"] (by simp [BeginsValue])
      (by simp [Fragment.StaysIn, LexerState.endsValue])
  obtain ⟨rfl, rfl⟩ : earlier = [] ∧ last = ⟨"a", [.text "x"]⟩ := by
    cases earlier with
    | nil => exact ⟨rfl, (List.cons.inj hlast).1.symm⟩
    | cons first more => simp at hlast
  have hvalue := hunique [.text "xy", .mustache m, .mustache m, .text " \">"]
    ⟨by simp [Fragment.items], by simp, by simp [Fragment.Apart, Fragment.isText, Fragment.text?]⟩
  rw [← hvalue] at hrun
  exact ⟨_, _, m, hrest, rfl, rfl, rfl, hrun⟩

end Assembly

end TemplateTree
