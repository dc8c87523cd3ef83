/-
A comment has the text between its delimiters.

Inside a comment the lexer may not write a dash down before it knows that the dash does not
belong to the end, so it holds back one or two of them; and an expression that arrives there is
written out as text, behind the dashes that were held back.  From then on those are text as well.
To say what ends a comment, one therefore has to tell what was read from what was written out:
`rawText` is the source as it stands, but the row behind it keeps characters and expressions
apart, and `EndsComment` asks for three characters with no expression between them.

`CommentRead` relates the row that has come so far to the state and to the text in hand.  A state
tells how the row ends, in no dash, in one or in more, and that is all there is to know for the
next character.
-/
import TemplateTree.Proofs.ValueOrder

namespace TemplateTree

/-- A row of characters and expressions as it stands in the source. -/
def rawText (row : List (Char ⊕ Mustache)) : String :=
  String.join (row.map (Sum.elim Char.toString Mustache.text))

/-- A row behind the opening of a comment with the end of the comment at its own end, and the text
that the comment has then.  The end is two dashes and a bracket, with no expression in between.
Right behind the opening it is a bracket, or a dash and a bracket. -/
inductive EndsComment : List (Char ⊕ Mustache) → String → Prop
  | dashes {row : List (Char ⊕ Mustache)} {content : String}
      (hends : [.inl '-', .inl '-', .inl '>'] <:+ row) (hcontent : content ++ "-->" = rawText row) :
    EndsComment row content
  | bracket : EndsComment [.inl '>'] ""
  | dashBracket : EndsComment [.inl '-', .inl '>'] ""

/-- No beginning of the row has an end at its own end. -/
def StaysInComment (row : List (Char ⊕ Mustache)) : Prop :=
  ∀ first content, first <+: row → ¬ EndsComment first content

/-! ### Rows -/

variable {row : List (Char ⊕ Mustache)} {state : LexerState} {content : String}

@[simp] theorem rawText_append (first second : List (Char ⊕ Mustache)) :
    rawText (first ++ second) = rawText first ++ rawText second := by
  simp [rawText]

@[simp] theorem rawText_char (c : Char) : rawText [.inl c] = c.toString := by
  simp [rawText]

@[simp] theorem rawText_mustache (m : Mustache) : rawText [.inr m] = m.text := by
  simp [rawText]

/-- It is a bracket that ends a comment. -/
theorem EndsComment.getLast? (h : EndsComment row content) : row.getLast? = some (.inl '>') := by
  cases h with
  | dashes hends hcontent =>
    obtain ⟨before, rfl⟩ := hends
    simp
  | bracket | dashBracket => rfl

theorem not_endsComment_concat {item : Char ⊕ Mustache} (h : item ≠ .inl '>') :
    ¬ EndsComment (row ++ [item]) content := by
  intro hends
  have hlast := hends.getLast?
  rw [List.getLast?_concat] at hlast
  exact h (Option.some.inj hlast)

/-- An end, read backwards. -/
theorem EndsComment.reverse_cases (h : EndsComment row content) :
    (∃ before, row.reverse = .inl '>' :: .inl '-' :: .inl '-' :: before) ∨
      row.reverse = [.inl '>'] ∨ row.reverse = [.inl '>', .inl '-'] := by
  cases h with
  | dashes hends hcontent =>
    obtain ⟨before, rfl⟩ := hends
    exact .inl ⟨before.reverse, by simp⟩
  | bracket => exact .inr (.inl rfl)
  | dashBracket => exact .inr (.inr rfl)

theorem staysInComment_nil : StaysInComment [] := by
  intro first content hfirst hends
  rw [List.prefix_nil.mp hfirst] at hends
  cases hends.getLast?

theorem StaysInComment.of_prefix {first : List (Char ⊕ Mustache)} (h : StaysInComment row)
    (hfirst : first <+: row) : StaysInComment first :=
  fun before content hbefore => h before content (hbefore.trans hfirst)

theorem staysInComment_concat_iff {item : Char ⊕ Mustache} :
    StaysInComment (row ++ [item]) ↔
      StaysInComment row ∧ ∀ content, ¬ EndsComment (row ++ [item]) content := by
  constructor
  · intro h
    exact ⟨h.of_prefix (List.prefix_append _ _), fun content => h _ content (List.prefix_refl _)⟩
  · rintro ⟨hrow, hlast⟩ first content hfirst
    rcases List.prefix_concat_iff.mp hfirst with rfl | hearlier
    · exact hlast content
    · exact hrow first content hearlier

/-- Whether a comment ends does not depend on the text that it has then. -/
theorem exists_endsComment_iff :
    (∃ content, EndsComment row content) ↔
      [.inl '-', .inl '-', .inl '>'] <:+ row ∨ row = [.inl '>'] ∨ row = [.inl '-', .inl '>'] := by
  constructor
  · rintro ⟨content, h⟩
    cases h with
    | dashes hends hcontent => exact .inl hends
    | bracket => exact .inr (.inl rfl)
    | dashBracket => exact .inr (.inr rfl)
  · rintro (⟨before, rfl⟩ | rfl | rfl)
    · exact ⟨rawText before, .dashes ⟨before, rfl⟩ (by rw [rawText_append]; rfl)⟩
    · exact ⟨"", .bracket⟩
    · exact ⟨"", .dashBracket⟩

instance : Decidable (StaysInComment row) :=
  decidable_of_iff (∀ first ∈ row.inits, ¬ ([.inl '-', .inl '-', .inl '>'] <:+ first ∨
      first = [.inl '>'] ∨ first = [.inl '-', .inl '>'])) <| by
    simp only [← exists_endsComment_iff, List.mem_inits, StaysInComment, not_exists]
    exact forall_congr' fun _ => forall_comm

/-! ### What was read -/

/-- A row behind the opening of a comment, with the state that it leaves and the text in hand. -/
inductive CommentRead : List (Char ⊕ Mustache) → LexerState → String → Prop
  | nothing : CommentRead [] .commentStart ""
  | firstDash : CommentRead [.inl '-'] .commentStartDash ""
  | inside (earlier : List (Char ⊕ Mustache)) {last : Char ⊕ Mustache} (hlast : last ≠ .inl '-') :
    CommentRead (earlier ++ [last]) .comment (rawText (earlier ++ [last]))
  | dash (earlier : List (Char ⊕ Mustache)) {last : Char ⊕ Mustache} (hlast : last ≠ .inl '-') :
    CommentRead (earlier ++ [last] ++ [Sum.inl '-']) .commentEndDash (rawText (earlier ++ [last]))
  | dashes (earlier : List (Char ⊕ Mustache)) :
    CommentRead (earlier ++ [Sum.inl '-'] ++ [Sum.inl '-']) .commentEnd (rawText earlier)

namespace CommentRead

/-- **The text in hand and the dashes held back are what was read.** -/
theorem raw_eq (h : CommentRead row state content) :
    content ++ Lexer.heldDashes state = rawText row := by
  cases h with
  | nothing => rfl
  | firstDash => rfl
  | inside earlier hlast => exact String.append_empty
  | dash earlier hlast => rw [rawText_append _ [.inl '-'], rawText_char]; rfl
  | dashes earlier =>
    rw [rawText_append, rawText_append, String.append_assoc]
    rfl

theorem isInComment (h : CommentRead row state content) : state.isInComment = true := by
  cases h <;> rfl

/-- An expression is written out behind the dashes, which are text from then on. -/
theorem mustache (h : CommentRead row state content) (m : Mustache) :
    CommentRead (row ++ [Sum.inr m]) .comment (content ++ Lexer.heldDashes state ++ m.text) := by
  have hinside : CommentRead (row ++ [Sum.inr m]) .comment (rawText (row ++ [Sum.inr m])) :=
    .inside row (by simp)
  rwa [rawText_append, rawText_mustache, ← h.raw_eq] at hinside

end CommentRead

/-- A character inside a comment goes on with it or ends it. -/
inductive CommentTurn (row : List (Char ⊕ Mustache)) (content : String) (c : Char) : Turn → Prop
  | goesOn {state' : LexerState} {content' : String}
      (hread : CommentRead (row ++ [Sum.inl c]) state' content')
      (hends : ∀ text, ¬ EndsComment (row ++ [Sum.inl c]) text) :
    CommentTurn row content c (Turn.goTo state' (some (.comment content')))
  | ends (hbracket : c = '>') (hends : EndsComment (row ++ [Sum.inl c]) content) :
    CommentTurn row content c (Turn.complete .data (some (.comment content)))

namespace CommentTurn

/-- A dash goes on with the comment. -/
theorem dash {state' : LexerState} {content' : String}
    (hread : CommentRead (row ++ [Sum.inl '-']) state' content') :
    CommentTurn row content '-' (Turn.goTo state' (some (.comment content'))) :=
  .goesOn hread fun _ => not_endsComment_concat (by decide)

/-- Any other character is written down behind the dashes that were held back, unless it ends the
comment. -/
theorem comment {c : Char} (h : CommentRead row state content) (hdash : c ≠ '-')
    (hends : ∀ text, ¬ EndsComment (row ++ [Sum.inl c]) text) :
    CommentTurn row content c
      (Turn.comment (Lexer.heldDashes state) (some (.comment content)) c) := by
  have hinside : CommentRead (row ++ [Sum.inl c]) .comment (rawText (row ++ [Sum.inl c])) :=
    .inside row (by simpa using hdash)
  have htext : rawText (row ++ [Sum.inl c]) = content ++ (Lexer.heldDashes state).push c := by
    rw [rawText_append, rawText_char, ← h.raw_eq, String.append_assoc]
    rfl
  rw [htext] at hinside
  exact .goesOn hinside hends

end CommentTurn

/-- **What a character does in a comment** is settled by how the row before it ends. -/
theorem CommentRead.take (h : CommentRead row state content) (c : Char) :
    CommentTurn row content c (Turn.take state (some (.comment content)) c) := by
  by_cases hdash : c = '-'
  · subst hdash
    cases h with
    | nothing => exact .dash .firstDash
    | firstDash => exact .dash (.dashes [])
    | inside earlier hlast => exact .dash (.dash earlier hlast)
    | dash earlier hlast => exact .dash (.dashes (earlier ++ [_]))
    | dashes earlier =>
      have hread : CommentRead (earlier ++ [Sum.inl '-'] ++ [Sum.inl '-'] ++ [Sum.inl '-'])
          .commentEnd (rawText (earlier ++ [Sum.inl '-'])) := .dashes (earlier ++ [Sum.inl '-'])
      rw [rawText_append, rawText_char] at hread
      exact .dash hread
  by_cases hbracket : c = '>'
  · subst hbracket
    cases h with
    | nothing => exact .ends rfl .bracket
    | firstDash => exact .ends rfl .dashBracket
    | inside earlier hlast =>
      refine .comment (.inside earlier hlast) hdash fun text hends => ?_
      rcases hends.reverse_cases with ⟨before, hrow⟩ | hrow | hrow <;> simp [hlast] at hrow
    | dash earlier hlast =>
      refine .comment (.dash earlier hlast) hdash fun text hends => ?_
      rcases hends.reverse_cases with ⟨before, hrow⟩ | hrow | hrow <;> simp [hlast] at hrow
    | dashes earlier =>
      refine .ends rfl (.dashes ⟨earlier, by simp⟩ ?_)
      rw [rawText_append, rawText_append, rawText_append, String.append_assoc, String.append_assoc]
      rfl
  · have hends : ∀ text, ¬ EndsComment (row ++ [Sum.inl c]) text := fun _ =>
      not_endsComment_concat (by simpa using hbracket)
    have hgoesOn := CommentTurn.comment h hdash hends
    cases h <;>
      simpa [Turn.take, Turn.commentStart, Turn.commentStartDash, Turn.insideComment,
        Turn.commentEndDash, Turn.commentEnd, hdash, hbracket, Lexer.heldDashes] using hgoesOn

/-! ### Text in a comment -/

/-- The first end of a comment in a text that comes behind a row, and the comment's text. -/
structure FirstEnd (row : List (Char ⊕ Mustache)) (text head tail : List Char) (comment : String) :
    Prop where
  text_eq : text = head ++ '>' :: tail
  stays : StaysInComment (row ++ head.map Sum.inl)
  ends : EndsComment (row ++ (head ++ ['>']).map Sum.inl) comment

/-- What comes of the rest of a text, after its first character. -/
theorem FirstEnd.cons {c : Char} {text head tail : List Char} {comment : String}
    (h : FirstEnd (row ++ [Sum.inl c]) text head tail comment) :
    FirstEnd row (c :: text) (c :: head) tail comment where
  text_eq := by rw [h.text_eq, List.cons_append]
  stays := by simpa using h.stays
  ends := by simpa using h.ends

theorem FirstEnd.not_staysInComment {text head tail : List Char} {comment : String}
    (h : FirstEnd row text head tail comment) (rest : List (Char ⊕ Mustache)) :
    ¬ StaysInComment (row ++ text.map Sum.inl ++ rest) := by
  intro hstays
  refine hstays _ comment ?_ h.ends
  exact ⟨tail.map Sum.inl ++ rest, by simp [h.text_eq]⟩

/-- **Text in a comment** is read to its end, and no token is completed; or it has a first end in
it, where the comment is completed, and what follows is read as by a new lexer. -/
theorem CommentRead.read_text :
    ∀ (text : List Char) {row : List (Char ⊕ Mustache)} {state : LexerState} {content : String},
      CommentRead row state content → StaysInComment row →
        (StaysInComment (row ++ text.map Sum.inl) ∧
          ∃ state' content', CommentRead (row ++ text.map Sum.inl) state' content' ∧
            Lexer.Passes ⟨state, some (.comment content), []⟩ text
              ⟨state', some (.comment content'), []⟩) ∨
        ∃ head tail comment, FirstEnd row text head tail comment ∧
          Lexer.read ⟨state, some (.comment content), []⟩ text =
            (.comment comment :: (Lexer.read {} tail).1, (Lexer.read {} tail).2) := by
  intro text
  induction text with
  | nil =>
    intro row state content h hstays
    rw [List.map_nil, List.append_nil]
    exact .inl ⟨hstays, state, content, h, Lexer.passes_nil _ _⟩
  | cons c text ih =>
    intro row state content h hstays
    have hmark : state ≠ .markupDeclaration := by
      rintro rfl
      cases h.isInComment
    have hsplit : row ++ (c :: text).map Sum.inl = row ++ [Sum.inl c] ++ text.map Sum.inl := by simp
    generalize hturn : Turn.take state (some (.comment content)) c = turn
    have hcases := h.take c
    rw [hturn] at hcases
    cases hcases with
    | goesOn hread hends =>
      have hfirst := Lexer.passes_singleton hmark hturn
      rcases ih hread (staysInComment_concat_iff.mpr ⟨hstays, hends⟩) with
        ⟨hstays', state', content', hread', hpasses⟩ | ⟨head, tail, comment, hend, hrest⟩
      · rw [hsplit]
        exact .inl ⟨hstays', state', content', hread', hfirst.append hpasses⟩
      · refine .inr ⟨c :: head, tail, comment, hend.cons, ?_⟩
        rw [← List.singleton_append, Lexer.read_append, hfirst, List.nil_append]
        exact hrest
    | ends hbracket hends =>
      subst hbracket
      have hclose := Lexer.read_of_complete hmark hturn
      refine .inr ⟨[], text, content, ⟨rfl, by simpa using hstays, hends⟩, ?_⟩
      rw [← List.singleton_append, Lexer.read_append, hclose]
      rfl

/-! ### Pieces -/

namespace Assembly

variable {s : OpenStack}

/-- An assembly in which a comment is read. -/
def inComment (s : OpenStack) (state : LexerState) (content : String) : Assembly :=
  ⟨⟨state, some (.comment content), []⟩, s⟩

/-- An expression is written out in the comment, behind the dashes that were held back. -/
theorem mergeMustache_inComment (hstate : state.isInComment = true) (m : Mustache) :
    (inComment s state content).mergeMustache m =
      ⟨inComment s .comment (content ++ Lexer.heldDashes state ++ m.text), none⟩ := by
  cases state <;> first | rfl | cases hstate

/-- A piece in a comment is read to its end, or it is a text with the first end in it. -/
theorem apply_inComment (s : OpenStack) (h : CommentRead row state content)
    (hstays : StaysInComment row) (f : Fragment) :
    (StaysInComment (row ++ f.items) ∧
      ∃ state' content', CommentRead (row ++ f.items) state' content' ∧
        (inComment s state content).apply f.operation = ⟨inComment s state' content', none⟩) ∨
    ∃ text head tail comment, f = .text text ∧ FirstEnd row text.toList head tail comment ∧
      (inComment s state content).lexer.feed text =
        (.comment comment :: (Lexer.read {} tail).1, (Lexer.read {} tail).2) := by
  cases f with
  | text text =>
    rcases h.read_text text.toList hstays with
      ⟨hstays', state', content', hread, hpasses⟩ | ⟨head, tail, comment, hend, hread⟩
    · refine .inl ⟨hstays', state', content', hread, ?_⟩
      show (inComment s state content).feed text = _
      have hlexer : (inComment s state content).lexer.read text.toList =
          ([], (inComment s state' content').lexer) := hpasses
      rw [feed_eq_mergeTokens, hlexer]
      rfl
    · exact .inr ⟨text, head, tail, comment, rfl, hend, hread⟩
  | mustache m =>
    refine .inl ⟨staysInComment_concat_iff.mpr ⟨hstays, fun _ => not_endsComment_concat (by simp)⟩,
      .comment, _, h.mustache m, ?_⟩
    exact mergeMustache_inComment h.isInComment m

/-- **What comes of a row of pieces in a comment**: all of them are read, or one of them has the
first end in it. -/
theorem run_inComment (s : OpenStack) :
    ∀ (pieces : List Fragment) {row : List (Char ⊕ Mustache)} {state : LexerState}
      {content : String}, CommentRead row state content → StaysInComment row →
        (StaysInComment (row ++ pieces.flatMap Fragment.items) ∧
          ∃ state' content', CommentRead (row ++ pieces.flatMap Fragment.items) state' content' ∧
            (inComment s state content).run (pieces.map Fragment.operation) =
              ⟨inComment s state' content', none⟩) ∨
        ∃ before text after, pieces = before ++ Fragment.text text :: after ∧
          ∃ state' content', (inComment s state content).run (before.map Fragment.operation) =
              ⟨inComment s state' content', none⟩ ∧
            ∃ head tail comment,
              FirstEnd (row ++ before.flatMap Fragment.items) text.toList head tail comment ∧
              (inComment s state' content').lexer.feed text =
                (.comment comment :: (Lexer.read {} tail).1, (Lexer.read {} tail).2) := by
  intro pieces
  induction pieces with
  | nil =>
    intro row state content h hstays
    rw [List.flatMap_nil, List.append_nil]
    exact .inl ⟨hstays, state, content, h, rfl⟩
  | cons f rest ih =>
    intro row state content h hstays
    rcases apply_inComment s h hstays f with
      ⟨hstays', state', content', hread, happly⟩ | ⟨text, head, tail, comment, rfl, hend, hfeed⟩
    · have hrun : ∀ more : List Operation, (inComment s state content).run (f.operation :: more) =
          (inComment s state' content').run more := by
        intro more
        rw [run, happly]
        rfl
      rcases ih hread hstays' with ⟨hall, state'', content'', hread', hrest⟩ |
        ⟨before, text, after, rfl, state'', content'', hbefore, head, tail, comment, hend, hfeed⟩
      · rw [List.flatMap_cons, ← List.append_assoc, List.map_cons, hrun]
        exact .inl ⟨hall, state'', content'', hread', hrest⟩
      · refine .inr ⟨f :: before, text, after, rfl, state'', content'', ?_, head, tail, comment, ?_,
          hfeed⟩
        · rw [List.map_cons, hrun, hbefore]
        · rwa [List.flatMap_cons, ← List.append_assoc]
    · exact .inr ⟨[], text, rest, rfl, state, content, rfl, head, tail, comment,
        by simpa using hend, hfeed⟩

/-! ### Behind an opening -/

/-- Right behind the opening of a comment nothing of the comment was read, and nothing is left to
read. -/
theorem eq_inComment_of_commentStart {a : Assembly} (h : a.lexer.AtRest)
    (hstate : a.lexer.state = .commentStart) : a = inComment a.stack .commentStart "" := by
  obtain ⟨⟨state, pending, unread⟩, s⟩ := a
  obtain ⟨hfits, hidle⟩ := h.resting s
  simp only at hstate
  subst hstate
  obtain ⟨content, rfl, hcontent⟩ := LexerState.Fits.of_isInComment hfits rfl
  obtain rfl : content = "" := hcontent (.inl rfl)
  obtain rfl : unread = [] := hidle (by simp)
  rfl

/-- Pieces without an end in them are all read. -/
theorem run_of_staysInComment (s : OpenStack) {pieces : List Fragment}
    (hstays : StaysInComment (pieces.flatMap Fragment.items)) :
    ∃ state content, CommentRead (pieces.flatMap Fragment.items) state content ∧
      (inComment s .commentStart "").run (pieces.map Fragment.operation) =
        ⟨inComment s state content, none⟩ := by
  rcases run_inComment s pieces .nothing staysInComment_nil with
    ⟨-, hall⟩ | ⟨before, text, after, rfl, -, -, -, head, tail, comment, hend, -⟩
  · exact hall
  · rw [List.flatMap_append, List.flatMap_cons, ← List.append_assoc] at hstays
    exact absurd hstays (hend.not_staysInComment _)

/-- **The text of a comment is the source between its delimiters**, whatever is put into it.  As
long as the pieces behind the opening have no end of a comment in them, no token is completed and no
expression fails, and the text in hand with the dashes that are held back is all that came.
Otherwise the comment is completed at the first end, which lies in a text, and has the text up to
there; what follows in that text is read as by a new lexer. -/
theorem run_comment_exact (a : Assembly) (h : a.lexer.AtRest)
    (hstate : a.lexer.state = .commentStart) (pieces : List Fragment) :
    (StaysInComment (pieces.flatMap Fragment.items) →
      (∃ state content, state.isInComment = true ∧
        content ++ Lexer.heldDashes state = rawText (pieces.flatMap Fragment.items) ∧
        a.run (pieces.map Fragment.operation) =
          ⟨{ a with lexer := ⟨state, some (.comment content), []⟩ }, none⟩) ∧
      ∀ before text after, pieces = before ++ Fragment.text text :: after →
        ((a.run (before.map Fragment.operation)).assembly.lexer.feed text).1 = []) ∧
    (¬ StaysInComment (pieces.flatMap Fragment.items) →
      ∃ before text after b head tail comment, pieces = before ++ Fragment.text text :: after ∧
        a.run (before.map Fragment.operation) = ⟨b, none⟩ ∧ b.stack = a.stack ∧
        FirstEnd (before.flatMap Fragment.items) text.toList head tail comment ∧
        b.lexer.feed text =
          (.comment comment :: (Lexer.read {} tail).1, (Lexer.read {} tail).2)) := by
  rw [eq_inComment_of_commentStart h hstate]
  refine ⟨fun hstays => ⟨?_, ?_⟩, fun hends => ?_⟩
  · obtain ⟨state, content, hread, hrun⟩ := run_of_staysInComment a.stack hstays
    exact ⟨state, content, hread.isInComment, hread.raw_eq, hrun⟩
  · rintro before text after rfl
    rw [List.flatMap_append, List.flatMap_cons, ← List.append_assoc] at hstays
    have hbefore := hstays.of_prefix (List.prefix_append _ _)
    have hearlier := hbefore.of_prefix (List.prefix_append _ _)
    obtain ⟨state, content, hread, hrun⟩ := run_of_staysInComment a.stack hearlier
    rw [hrun]
    rcases hread.read_text text.toList hearlier with
      ⟨-, state', content', -, hpasses⟩ | ⟨head, tail, comment, hend, -⟩
    · exact congrArg Prod.fst hpasses
    · exact absurd hstays (hend.not_staysInComment _)
  · rcases run_inComment a.stack pieces .nothing staysInComment_nil with ⟨hstays, -⟩ |
      ⟨before, text, after, hpieces, state, content, hrun, head, tail, comment, hend, hfeed⟩
    · exact absurd hstays hends
    · exact ⟨before, text, after, _, head, tail, comment, hpieces, hrun, rfl, hend, hfeed⟩

/-- An expression separates two dashes, so that the first bracket ends nothing; the last one does,
with dashes that came in the piece before. -/
theorem run_comment_exact_of_dashes :
    ∃ (a : Assembly) (m : Mustache), a.lexer.AtRest ∧ a.lexer.state = .commentStart ∧
      (∃ state content, content ++ Lexer.heldDashes state = "-\x7b\x7bb\x7d\x7d->--" ∧
        a.run [.feed "-", .mustache m, .feed "->--"] =
          ⟨{ a with lexer := ⟨state, some (.comment content), []⟩ }, none⟩) ∧
      ∃ before text after b head tail comment,
        [Fragment.text "-", .mustache m, .text "->--", .text ">x"] =
          before ++ Fragment.text text :: after ∧
        a.run (before.map Fragment.operation) = ⟨b, none⟩ ∧ b.stack = a.stack ∧
        FirstEnd (before.flatMap Fragment.items) text.toList head tail comment ∧
        b.lexer.feed text =
          (.comment comment :: (Lexer.read {} tail).1, (Lexer.read {} tail).2) := by
  have hrest : (Lexer.feed {} "<!--").2.AtRest := .feed .fresh _
  have hread : (Lexer.feed {} "<!--").2 = ⟨.commentStart, some (.comment ""), []⟩ := by
    cbv
  rw [hread] at hrest
  let m : Mustache := ⟨⟨"b", [], []⟩, true⟩
  obtain ⟨⟨state, content, -, hraw, hrun⟩, -⟩ :=
    (run_comment_exact ⟨_, { maxDepth := 0 }⟩ hrest rfl
      [.text "-", .mustache m, .text "->--"]).1 (by decide)
  have hends := (run_comment_exact ⟨_, { maxDepth := 0 }⟩ hrest rfl
    [.text "-", .mustache m, .text "->--", .text ">x"]).2 (by decide)
  exact ⟨_, m, hrest, rfl, ⟨state, content, hraw.trans (by cbv), hrun⟩, hends⟩

end Assembly

end TemplateTree
