/-
Every spelling of an expression reads as it.

An expression has one written form and many spellings.  Blanks of any kind and number may
stand between its words and around them, and a string may stand in quotes of either kind.
Nothing else is free: a name is spelled as it is, and in a string each backslash and each of
its quotes stands behind a backslash.

So what a spelling gives away is its words.  Each shows where it ends, a bare one at a blank
and a string at the first of its quotes that is not marked; and each stands for the
parameter that it is a word of, if that is a name which can be taken for nothing else.
-/
import TemplateTree.Proofs.Rereading

namespace TemplateTree

namespace Expression

/-! ### Spellings -/

/-- A row of blanks, or nothing. -/
def Blanks (gap : List Char) : Prop :=
  ∀ c ∈ gap, isBlank c = true

/-- The characters of a string as they stand in quotes of one kind. -/
def fullyMarked (quote : Char) (value : List Char) : List Char :=
  value.flatMap fun c => if c = '\\' ∨ c = quote then ['\\', c] else [c]

/-- The spellings of the value of a word. -/
inductive Piece.SpelledAs : Piece → List Char → Prop
  | bare (content : String) : SpelledAs (.bare content) content.toList
  | quoted {quote : Char} (hquote : quote = '\"' ∨ quote = '\'') (content : String) :
    SpelledAs (.quoted content) (quote :: (fullyMarked quote content.toList ++ [quote]))

/-- The spellings of a word. -/
inductive Word.SpelledAs : Word → List Char → Prop
  | positional {value : Piece} {text : List Char} (hvalue : value.SpelledAs text) :
    SpelledAs ⟨none, value⟩ text
  | named (key : String) {value : Piece} {text : List Char} (hvalue : value.SpelledAs text) :
    SpelledAs ⟨some key, value⟩ (key.toList ++ '=' :: text)

/-- The spellings of a row of words that begin with its first word.  After each word there may
be blanks, and there are some before the next one. -/
inductive WordsSpelledAs : List Word → List Char → Prop
  | nil : WordsSpelledAs [] []
  | cons {w : Word} {rest : List Word} {text gap later : List Char} (hword : w.SpelledAs text)
      (hgap : Blanks gap) (hne : rest ≠ [] → gap ≠ []) (hrest : WordsSpelledAs rest later) :
    WordsSpelledAs (w :: rest) (text ++ (gap ++ later))

/-- The spellings of an expression. -/
def SpelledAs (e : Expression) (text : List Char) : Prop :=
  ∃ gap body, text = gap ++ body ∧ Blanks gap ∧ WordsSpelledAs e.words body

/-! ### Expressions that can be spelled -/

/-- A name that can be taken for nothing else: it is no truth value, and it begins neither with a
digit nor with a minus sign and a digit. -/
structure IsName (name : String) : Prop where
  notTrue : name ≠ "true"
  notFalse : name ≠ "false"
  noDigit : ∀ digit : Char, digit.isDigit = true → ¬ [digit] <+: name.toList
  noMinus : ∀ digit : Char, digit.isDigit = true → ¬ ['-', digit] <+: name.toList

end Expression

/-- A parameter that a word stands for.  Which texts are words depends on the place.  Numbers are
left out, since they have many spellings of their own. -/
def Param.Expressible (IsWordText : List Char → Prop) : Param → Prop
  | .path name => IsWordText name.toList ∧ Expression.IsName name
  | .string _ => True
  | .number _ => False
  | .boolean _ => True

namespace Expression

/-- An expression whose names are words.  Behind the equals sign of a named parameter there may be
more of them. -/
structure Expressible (e : Expression) : Prop where
  path : IsBare e.path.toList
  params : ∀ param ∈ e.params, param.Expressible IsBare
  hash : ∀ entry ∈ e.hash, IsBare entry.1.toList ∧ entry.2.Expressible IsBareValue

/-! ### Strings -/

/-- **A string reads as it is spelled**, in quotes of either kind. -/
theorem readQuoted_fullyMarked {quote : Char} (hquote : quote ≠ '\\') (value rest : List Char) :
    readQuoted quote (fullyMarked quote value ++ quote :: rest) = .ok (value, rest) := by
  induction value with
  | nil =>
    show readQuoted quote (quote :: rest) = _
    rw [readQuoted]
    · simp
    · intro c tail heq
      exact absurd heq hquote
  | cons c tail ih =>
    have hunfold : fullyMarked quote (c :: tail) =
        (if c = '\\' ∨ c = quote then ['\\', c] else [c]) ++ fullyMarked quote tail := rfl
    rw [hunfold]
    by_cases hmark : c = '\\' ∨ c = quote
    · simp only [hmark, if_true, List.cons_append, List.nil_append, readQuoted, ih]
      simp [bind, Except.bind, hmark.symm]
    · rw [if_neg hmark, List.append_assoc, List.singleton_append]
      obtain ⟨hslash, hother⟩ := not_or.mp hmark
      exact readQuoted_cons hother hslash ih

theorem ne_slash_of_quote {quote : Char} (h : quote = '\"' ∨ quote = '\'') : quote ≠ '\\' := by
  rcases h with rfl | rfl <;> decide

theorem isQuote_of_quote {quote : Char} (h : quote = '\"' ∨ quote = '\'') :
    isQuote quote = true := by
  rcases h with rfl | rfl <;> rfl

/-! ### Words -/

/-- A value that is bare, if it is, is one: there is no quote at its beginning and no blank in
it. -/
def Piece.Formed : Piece → Prop
  | .bare content => IsBareValue content.toList
  | .quoted _ => True

/-- The value of a named parameter reads as it is spelled. -/
theorem readValue_spelledAs {value : Piece} (h : value.Formed) {text rest : List Char}
    (htext : value.SpelledAs text) (hrest : Ends rest) :
    readValue (text ++ rest) = .ok (value, rest) := by
  cases htext with
  | bare content => exact readValue_bare h hrest
  | quoted hquote content =>
    rw [List.cons_append, List.append_assoc, List.singleton_append,
      readValue_quote (isQuote_of_quote hquote), readQuoted_fullyMarked (ne_slash_of_quote hquote)]
    simp [Except.map]

theorem Word.Formed.named {key : String} {value : Piece} (h : Formed ⟨some key, value⟩) :
    IsBare key.toList ∧ value.Formed := by
  cases value with
  | bare content => exact h
  | quoted content => exact ⟨h, trivial⟩

/-- **A word reads as it is spelled**, whatever comes after its end. -/
theorem readWord_spelledAs {w : Word} (h : w.Formed) {text rest : List Char}
    (htext : w.SpelledAs text) {c : Char} {tail : List Char} (hbegins : text ++ rest = c :: tail)
    (hrest : Ends rest) : readWord c tail = .ok (w, rest) := by
  cases htext with
  | positional hvalue =>
    cases hvalue with
    | bare content => exact readWord_of_formed (w := ⟨none, .bare content⟩) h nofun hbegins hrest
    | @quoted quote hquote content =>
      rw [List.cons_append, List.append_assoc, List.singleton_append, List.cons.injEq] at hbegins
      obtain ⟨rfl, rfl⟩ := hbegins
      rw [readWord_quote (isQuote_of_quote hquote), readQuoted_fullyMarked (ne_slash_of_quote hquote)]
      simp [Except.map]
  | named key hvalue =>
    obtain ⟨hkey, hformed⟩ := h.named
    rw [List.append_assoc, List.cons_append] at hbegins
    rw [readWord_key hkey hbegins, readValue_spelledAs hformed hvalue hrest, Except.map]

/-- A spelling of a word begins with no blank. -/
theorem spelledAs_begins {w : Word} (h : w.Formed) {text : List Char} (htext : w.SpelledAs text) :
    ∃ c tail, text = c :: tail ∧ isBlank c = false := by
  cases htext with
  | positional hvalue =>
    cases hvalue with
    | bare content => exact IsBare.begins_not_blank h
    | quoted hquote content =>
      refine ⟨_, _, rfl, ?_⟩
      rcases hquote with rfl | rfl <;> decide
  | @named key value text hvalue =>
    obtain ⟨c, tail, hkey, hblank⟩ := h.named.1.begins_not_blank
    exact ⟨c, tail ++ '=' :: text, by rw [hkey, List.cons_append], hblank⟩

/-! ### Rows of words -/

/-- Blanks before a text make no difference to its words. -/
theorem readWords_blanks {gap : List Char} (h : Blanks gap) (text : List Char) :
    readWords (gap ++ text) = readWords text := by
  induction gap with
  | nil => rfl
  | cons c rest ih =>
    rw [List.cons_append, readWords_cons_of_blank (h c List.mem_cons_self)]
    exact ih fun d hd => h d (List.mem_cons_of_mem c hd)

/-- After a word there is a blank, or the end. -/
theorem ends_gap {rest : List Word} {gap later : List Char} (hgap : Blanks gap)
    (hne : rest ≠ [] → gap ≠ []) (hlater : WordsSpelledAs rest later) : Ends (gap ++ later) := by
  intro c hc
  cases gap with
  | cons d more =>
    obtain rfl : d = c := by simpa using hc
    exact hgap d List.mem_cons_self
  | nil =>
    cases hlater with
    | nil => simp at hc
    | cons => exact absurd rfl (hne (List.cons_ne_nil _ _))

/-- **Words read as they are spelled.** -/
theorem readWords_spelledAs {words : List Word} {text : List Char} (htext : WordsSpelledAs words text)
    (hformed : ∀ w ∈ words, w.Formed) : readWords text = .ok words := by
  induction htext with
  | nil =>
    rw [readWords]
    rfl
  | @cons w rest text gap later hword hgap hne hrest ih =>
    have hw := hformed w List.mem_cons_self
    obtain ⟨c, tail, rfl, hblank⟩ := spelledAs_begins hw hword
    have htrim : trimStart (c :: (tail ++ (gap ++ later))) = c :: (tail ++ (gap ++ later)) := by
      simp [trimStart, hblank]
    have hread : readWord c (tail ++ (gap ++ later)) = .ok (w, gap ++ later) :=
      readWord_spelledAs hw hword (List.cons_append ..) (ends_gap hgap hne hrest)
    rw [List.cons_append, readWords_eq, htrim]
    simp only [hread, readWords_blanks hgap,
      ih fun other hmem => hformed other (List.mem_cons_of_mem w hmem)]

/-! ### Expressions -/

/-- A name does not look like a number. -/
theorem IsName.looksNumeric {name : String} (h : IsName name) : looksNumeric name.toList = false := by
  obtain ⟨-, -, hdigit, hminus⟩ := h
  generalize name.toList = text at hdigit hminus ⊢
  unfold Expression.looksNumeric
  split
  · rename_i c rest
    by_contra hc
    exact hminus c (by simpa using hc) ⟨rest, rfl⟩
  · rename_i c rest _
    by_contra hc
    exact hdigit c (by simpa using hc) ⟨rest, rfl⟩
  · rfl

end Expression

open Expression

/-- The word of an expressible parameter stands for it. -/
theorem Param.Expressible.toParam_piece {IsWordText : List Char → Prop} {param : Param}
    (h : param.Expressible IsWordText) : param.piece.toParam = param := by
  cases param with
  | path name =>
    have hname := h.2
    simp [Param.piece, Piece.toParam, bareParam, hname.notTrue, hname.notFalse,
      hname.looksNumeric]
  | string value => rfl
  | number value => exact h.elim
  | boolean value => cases value <;> rfl

namespace Expression

theorem isBare_boolean (value : Bool) : IsBare (if value then "true" else "false").toList := by
  cases value <;> exact ⟨⟨_, rfl, rfl⟩, by simp [isBareChar, isBlank]⟩

/-- The words of an expressible expression are of the form that reading gives. -/
theorem Expressible.formed {e : Expression} (h : e.Expressible) : ∀ w ∈ e.words, w.Formed := by
  intro w hw
  simp only [words, List.mem_cons, List.mem_append, List.mem_map] at hw
  rcases hw with rfl | ⟨param, hparam, rfl⟩ | ⟨⟨key, value⟩, hentry, rfl⟩
  · exact h.path
  · have hform := h.params param hparam
    cases param with
    | path name => exact hform.1
    | string value => trivial
    | number value => exact hform.elim
    | boolean value => exact isBare_boolean value
  · obtain ⟨hkey, hform⟩ := h.hash _ hentry
    cases value with
    | path name => exact ⟨hkey, hform.1⟩
    | string value => exact hkey
    | number value => exact hform.elim
    | boolean value => exact ⟨hkey, (isBare_boolean value).isBareValue⟩

/-- **Every spelling of an expression reads as it.**  Blanks and quotes are free, and what is read
has the parameters in their order, with the strings that were meant. -/
theorem read_of_spelledAs {e : Expression} (he : e.Expressible) {text : List Char}
    (h : e.SpelledAs text) : read text = .ok e := by
  obtain ⟨gap, body, rfl, hgap, hbody⟩ := h
  have hwords : readWords (gap ++ body) = .ok e.words := by
    rw [readWords_blanks hgap]
    exact readWords_spelledAs hbody he.formed
  have hsame := ofWords_words (fun param hmem => (he.params param hmem).toParam_piece)
    fun entry hmem => (he.hash entry hmem).2.toParam_piece
  simp [read, hwords, bind, Except.bind, hsame]

/-- A string with its own quote and a backslash at its end stands in single quotes, between blanks
of other kinds than the space; and a value may have equals signs in it. -/
theorem read_of_spelledAs_in_single_quotes :
    let e : Expression := ⟨"each", [.string "it's\\"], [("k", .path "x=y"), ("l", .boolean true)]⟩
    let text := "\u2003each\t 'it\\'s\\\\'\nk=x=y l=true ".toList
    e.Expressible ∧ e.SpelledAs text ∧ read text = .ok e := by
  intro e text
  have hpath : IsBare "each".toList := ⟨⟨_, rfl, rfl⟩, by simp [isBareChar, isBlank]⟩
  have hkeys : IsBare "k".toList ∧ IsBare "l".toList :=
    ⟨⟨⟨_, rfl, rfl⟩, by simp [isBareChar, isBlank]⟩, ⟨⟨_, rfl, rfl⟩, by simp [isBareChar, isBlank]⟩⟩
  have hvalue : IsBareValue "x=y".toList := ⟨⟨_, rfl, rfl⟩, by simp [isBlank]⟩
  have hname : IsName "x=y" := by
    refine ⟨by decide, by decide, ?_, ?_⟩ <;>
    · rintro digit hdigit ⟨rest, hrest⟩
      simp_all
  have he : e.Expressible := by
    refine ⟨hpath, by simp [e, Param.Expressible], ?_⟩
    simpa [e, Param.Expressible, hname] using And.intro (And.intro hkeys.1 hvalue) hkeys.2
  have hl : WordsSpelledAs [⟨some "l", .bare "true"⟩] ("l=true".toList ++ (" ".toList ++ [])) :=
    .cons (.named "l" (.bare "true")) (by simp [Blanks, isBlank]) (by simp) .nil
  have hblank : Blanks [' '] ∧ Blanks ['\n'] ∧ Blanks ['\t', ' '] := by simp [Blanks, isBlank]
  have hk := hl.cons (.named "k" (.bare "x=y")) hblank.1 (by simp)
  have hstring := hk.cons (.positional (.quoted (.inr rfl) "it's\\")) hblank.2.1 (by simp)
  have hwords := hstring.cons (.positional (.bare "each")) hblank.2.2 (by simp)
  have htext : e.SpelledAs text :=
    ⟨['\u2003'], _, by decide, by simp [Blanks, isBlank], hwords⟩
  exact ⟨he, htext, read_of_spelledAs he htext⟩

end Expression

end TemplateTree
