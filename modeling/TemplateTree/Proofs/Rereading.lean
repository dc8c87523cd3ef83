/-
What is read back is what was read, and when.

Reading gives words of a certain form, and the expression made from them is written as those
words, unless a number is among them.  So all hangs on the words, and among these on the
strings: any other word of that form shows where it ends.

A string comes back exactly when none of its backslashes is taken for a mark.  That one which is
taken for a mark cannot make up for it further on is the part that needs an argument.  Each mark
that is dropped leaves the reader one character short, and what it reads on to, beyond the quote
included, would have to supply a backslash where the string has none.  `readQuoted_owing` counts
the backslashes that are owed.
-/
import Mathlib
import TemplateTree.Proofs.Builder
import TemplateTree.Proofs.Words

namespace TemplateTree

/-- What is made of something, is made of something that succeeded. -/
theorem exists_of_map_ok {α β ε : Type} {first : Except ε α} {make : α → β} {b : β}
    (h : first.map make = .ok b) : ∃ a, first = .ok a ∧ make a = b := by
  match first, h with
  | .ok a, h => exact ⟨a, rfl, Except.ok.inj h⟩

namespace Expression

/-! ### Strings -/

/-- A string that was read on from an ordinary character begins with it. -/
theorem readQuoted_cons_ok {quote c : Char} (hquote : c ≠ quote) (hslash : c ≠ '\\')
    {text value rest : List Char} (h : readQuoted quote (c :: text) = .ok (value, rest)) :
    ∃ later, readQuoted quote text = .ok (later, rest) ∧ value = c :: later := by
  rw [readQuoted] at h
  · simp only [hquote, hslash, if_false] at h
    obtain ⟨⟨later, rest'⟩, hread, hvalue⟩ := exists_of_bind_ok h
    cases hvalue
    exact ⟨later, hread, rfl⟩
  · intro next tail heq
    exact absurd heq hslash

/-- A string that was read on from a backslash has it only if it marks nothing. -/
theorem readQuoted_slash_ok {quote c : Char} {text value rest : List Char}
    (h : readQuoted quote ('\\' :: c :: text) = .ok (value, rest)) :
    ∃ later, readQuoted quote text = .ok (later, rest) ∧
      value = if c = quote ∨ c = '\\' then c :: later else '\\' :: c :: later := by
  rw [readQuoted] at h
  obtain ⟨⟨later, rest'⟩, hread, hvalue⟩ := exists_of_bind_ok h
  dsimp only at hvalue
  split at hvalue
  all_goals
    rename_i hmark
    simp only [Except.ok.injEq, Prod.mk.injEq] at hvalue
    obtain ⟨rfl, rfl⟩ := hvalue
    exact ⟨later, hread, by simp [hmark]⟩

/-- A double quote in a string is written behind a mark. -/
theorem marked_quote (rest : List Char) : marked ('\"' :: rest) = '\\' :: '\"' :: marked rest := by
  simp [marked]

theorem replicate_append_cons_self {α : Type} (count : Nat) (a : α) (rest : List α) :
    List.replicate count a ++ a :: rest = a :: (List.replicate count a ++ rest) := by
  rw [List.append_cons, ← List.replicate_succ', List.replicate_succ, List.cons_append]

/-- Backslashes before a text are all that can be told from it when another character is first. -/
theorem eq_of_replicate_slash {owed : Nat} {c : Char} (hc : c ≠ '\\') {text later : List Char}
    (h : List.replicate owed '\\' ++ c :: text = c :: later) : owed = 0 ∧ text = later := by
  cases owed with
  | zero => simpa using h
  | succ owed =>
    rw [List.replicate_succ, List.cons_append, List.cons.injEq] at h
    exact absurd h.1.symm hc

theorem readQuoted_quote (rest : List Char) : readQuoted '\"' ('\"' :: rest) = .ok ([], rest) :=
  rfl

/-- When the written string reads as that string with backslashes before it, none are before it
and none in it is taken for a mark. -/
def OwesNothing (value : List Char) : Prop :=
  ∀ (owed : Nat) (rest left : List Char),
    readQuoted '\"' (marked value ++ '\"' :: rest) =
      .ok (List.replicate owed '\\' ++ value, left) → owed = 0 ∧ Unmarked value

theorem owesNothing_nil : OwesNothing [] := by
  intro owed rest left h
  rw [marked, List.flatMap_nil, List.nil_append, readQuoted_quote] at h
  cases owed with
  | zero => exact ⟨rfl, trivial⟩
  | succ owed => cases h

/-- A character that is no backslash is read as itself, so nothing is owed before it. -/
theorem OwesNothing.cons {c : Char} (hslash : c ≠ '\\') {tail : List Char} (htail : OwesNothing tail) :
    OwesNothing (c :: tail) := by
  intro owed rest left h
  have hread : ∃ later, readQuoted '\"' (marked tail ++ '\"' :: rest) = .ok (later, left) ∧
      List.replicate owed '\\' ++ c :: tail = c :: later := by
    by_cases hquote : c = '\"'
    · rw [hquote, marked_quote] at h
      obtain ⟨later, hlater, hvalue⟩ := readQuoted_slash_ok h
      exact ⟨later, hlater, by simpa [hquote] using hvalue⟩
    · rw [marked_cons hquote] at h
      exact readQuoted_cons_ok hquote hslash h
  obtain ⟨later, hlater, hvalue⟩ := hread
  obtain ⟨rfl, rfl⟩ := eq_of_replicate_slash hslash hvalue
  exact ⟨rfl, fun heq => absurd heq hslash, (htail 0 rest left hlater).2⟩

/-- A backslash at the end takes the closing quote for a marked one. -/
theorem owesNothing_slash : OwesNothing ['\\'] := by
  intro owed rest left h
  obtain ⟨later, -, hvalue⟩ := readQuoted_slash_ok h
  rw [if_pos (.inl rfl), replicate_append_cons_self] at hvalue
  simp at hvalue

/-- A backslash is read together with what is written after it. -/
theorem OwesNothing.slash (next : Char) {tail : List Char} (htail : OwesNothing tail) :
    OwesNothing ('\\' :: next :: tail) := by
  intro owed rest left h
  rw [marked_cons (by decide)] at h
  by_cases hquote : next = '\"'
  · -- what is written is the mark of the quote, and then the quote ends the string
    rw [hquote, marked_quote] at h
    obtain ⟨later, hlater, hvalue⟩ := readQuoted_slash_ok h
    rw [List.append_eq, List.cons_append, readQuoted_quote, Except.ok.injEq,
      Prod.mk.injEq] at hlater
    rw [← hlater.1] at hvalue
    have hlength : owed + (tail.length + 2) = 1 := by simpa using congrArg List.length hvalue
    omega
  · rw [marked_cons hquote] at h
    obtain ⟨later, hlater, hvalue⟩ := readQuoted_slash_ok h
    by_cases hslash : next = '\\'
    · -- one backslash more is owed from here on
      have hmore : later = List.replicate (owed + 1) '\\' ++ tail := by
        rw [hslash, if_pos (.inr rfl), replicate_append_cons_self, List.cons.injEq] at hvalue
        rw [← hvalue.2, List.replicate_succ', List.append_assoc, List.singleton_append]
      rw [hmore] at hlater
      exact absurd (htail (owed + 1) rest left hlater).1 (Nat.succ_ne_zero owed)
    · rw [if_neg (by simp [hquote, hslash]), replicate_append_cons_self, List.cons.injEq] at hvalue
      obtain ⟨rfl, rfl⟩ := eq_of_replicate_slash hslash hvalue.2
      have hmarks := (htail 0 rest left hlater).2
      exact ⟨rfl, fun _ => ⟨next, rfl, hslash, hquote⟩, fun heq => absurd heq hslash, hmarks⟩

theorem owesNothing (value : List Char) : OwesNothing value := by
  induction value using List.twoStepInduction with
  | nil => exact owesNothing_nil
  | singleton c =>
    by_cases hslash : c = '\\'
    · rw [hslash]
      exact owesNothing_slash
    · exact owesNothing_nil.cons hslash
  | cons_cons c next tail ih ihCons =>
    by_cases hslash : c = '\\'
    · rw [hslash]
      exact ih.slash next
    · exact (ihCons next).cons hslash

/-- **Only a string without misleading backslashes reads as it was written**, whatever follows
and however far the reader goes on. -/
theorem unmarked_of_readQuoted {value rest left : List Char}
    (h : readQuoted '\"' (marked value ++ '\"' :: rest) = .ok (value, left)) : Unmarked value :=
  (owesNothing value 0 rest left h).2

/-! ### Words -/

namespace Word

/-- A word of the form that reading gives. -/
def Formed : Word → Prop
  | ⟨none, .bare content⟩ => IsBare content.toList
  | ⟨none, .quoted _⟩ => True
  | ⟨some key, .bare content⟩ => IsBare key.toList ∧ IsBareValue content.toList
  | ⟨some key, .quoted _⟩ => IsBare key.toList

/-- A word whose string, if it has one, reads as it is written. -/
def Unambiguous (w : Word) : Prop :=
  ∀ content, w.value = .quoted content → Unmarked content.toList

end Word

/-- The beginning of a text that is neither quoted nor blank is a value. -/
theorem isBareValue_takeWhile {c : Char} {rest : List Char} (hquote : isQuote c = false)
    (hblank : isBlank c = false) : IsBareValue ((c :: rest).takeWhile (!isBlank ·)) := by
  rw [List.takeWhile_cons_of_pos (by simp [hblank])]
  refine ⟨⟨c, rfl, hquote⟩, fun d hd => ?_⟩
  rcases List.mem_cons.mp hd with rfl | htail
  · exact hblank
  · simpa using List.mem_takeWhile_imp htail

/-- The beginning of a text that is neither quoted nor blank, up to an equals sign, is a word. -/
theorem isBare_takeWhile {c : Char} {rest : List Char} (hquote : isQuote c = false)
    (hbare : isBareChar c = true) : IsBare (c :: rest.takeWhile isBareChar) := by
  refine ⟨⟨c, rfl, hquote⟩, fun d hd => ?_⟩
  rcases List.mem_cons.mp hd with rfl | htail
  · exact hbare
  · exact List.mem_takeWhile_imp htail

/-- A value without quotes that was read is one. -/
theorem isBareValue_of_readValue {text rest : List Char} {content : String}
    (h : readValue text = .ok (.bare content, rest)) : IsBareValue content.toList := by
  unfold readValue at h
  split at h
  · cases h
  · rename_i c tail
    split at h
    · obtain ⟨⟨value, left⟩, -, hvalue⟩ := exists_of_bind_ok h
      cases hvalue
    · rename_i hquote
      split at h
      · cases h
      · rename_i hblank
        cases h
        rw [String.toList_ofList]
        exact isBareValue_takeWhile (by simpa using hquote) (by simpa using hblank)

/-- **A word that was read is of the form.** -/
theorem formed_of_readWord {c : Char} {text rest : List Char} {w : Word}
    (hblank : isBlank c = false) (h : readWord c text = .ok (w, rest)) : w.Formed := by
  unfold readWord at h
  split at h
  · obtain ⟨⟨value, left⟩, -, hvalue⟩ := exists_of_bind_ok h
    cases hvalue
    trivial
  · rename_i hquote
    split at h
    · cases h
    · rename_i hequals
      have hbare : IsBare (String.ofList (c :: text.takeWhile isBareChar)).toList := by
        rw [String.toList_ofList]
        exact isBare_takeWhile (by simpa using hquote) (by simp [isBareChar, hblank, hequals])
      dsimp only at h
      split at h
      · obtain ⟨⟨value, left⟩, hread, hvalue⟩ := exists_of_bind_ok h
        cases hvalue
        cases value with
        | bare content => exact ⟨hbare, isBareValue_of_readValue hread⟩
        | quoted content => exact hbare
      · cases h
        exact hbare

/-- Words that were read are of the form. -/
theorem formed_of_readWords {text : List Char} {words : List Word}
    (h : readWords text = .ok words) : ∀ w ∈ words, w.Formed := by
  fun_induction readWords text generalizing words with
  | case1 => cases h; simp
  | case2 => cases h
  | case3 => cases h
  | case4 text c tail htrim w rest hword later hlater ih =>
    cases h
    rintro other (_ | ⟨_, hother⟩)
    · exact formed_of_readWord (trimStart_head_not_blank htrim) hword
    · exact ih hlater other hother

/-- A word of the form reads as it is written, if its string does. -/
theorem readWord_of_formed {w : Word} (h : w.Formed) (hstring : w.Unambiguous) {c : Char}
    {tail rest : List Char} (hspelling : w.spelling ++ rest = c :: tail) (hrest : Ends rest) :
    readWord c tail = .ok (w, rest) := by
  match w, h with
  | ⟨none, .bare content⟩, h =>
    have hsound : Word.Sound ⟨none, .bare content⟩ := ⟨by simp, h⟩
    exact readWord_spelling hsound hspelling hrest
  | ⟨none, .quoted content⟩, h =>
    have hsound : Word.Sound ⟨none, .quoted content⟩ := ⟨by simp, hstring content rfl⟩
    exact readWord_spelling hsound hspelling hrest
  | ⟨some key, .bare content⟩, h =>
    rw [readWord_named h.1 hspelling, Piece.spelling, readValue_bare h.2 hrest, Except.map]
  | ⟨some key, .quoted content⟩, h =>
    rw [readWord_named h hspelling, readValue_quoted (hstring content rfl), Except.map]

theorem readValue_quote {quote : Char} (hquote : isQuote quote = true) (text : List Char) :
    readValue (quote :: text) =
      (readQuoted quote text).map fun read => (.quoted (String.ofList read.1), read.2) := by
  cases hread : readQuoted quote text <;>
    simp [readValue, hquote, hread, bind, Except.bind, Except.map]

theorem readWord_quote {quote : Char} (hquote : isQuote quote = true) (text : List Char) :
    readWord quote text =
      (readQuoted quote text).map fun read => (⟨none, .quoted (String.ofList read.1)⟩, read.2) := by
  cases hread : readQuoted quote text <;>
    simp [readWord, hquote, hread, bind, Except.bind, Except.map]

/-- A word that reads as it is written has no misleading backslash. -/
theorem unambiguous_of_readWord {w : Word} (h : w.Formed) {c : Char} {tail rest left : List Char}
    (hspelling : w.spelling ++ rest = c :: tail) (hread : readWord c tail = .ok (w, left)) :
    w.Unambiguous := by
  rintro content hvalue
  obtain ⟨key, value⟩ := w
  obtain rfl : value = .quoted content := hvalue
  have hquoted : ∃ value, readQuoted '\"' (marked content.toList ++ '\"' :: rest) = .ok value ∧
      String.ofList value.1 = content := by
    cases key with
    | none =>
      simp only [Word.spelling, Piece.spelling, List.cons_append, List.append_assoc,
        List.nil_append, List.cons.injEq] at hspelling
      obtain ⟨rfl, rfl⟩ := hspelling
      rw [readWord_quote rfl] at hread
      obtain ⟨value, hvalue, hword⟩ := exists_of_map_ok hread
      exact ⟨value, hvalue, by simpa using congrArg (·.1.value) hword⟩
    | some key =>
      rw [readWord_named h hspelling] at hread
      obtain ⟨⟨piece, left'⟩, hpiece, hword⟩ := exists_of_map_ok hread
      rw [Piece.spelling, List.cons_append, List.append_assoc, List.singleton_append,
        readValue_quote rfl] at hpiece
      obtain ⟨value, hvalue, hpair⟩ := exists_of_map_ok hpiece
      cases hpair
      exact ⟨value, hvalue, by simpa using congrArg (·.1.value) hword⟩
  obtain ⟨⟨value, left'⟩, hvalue, rfl⟩ := hquoted
  rw [String.toList_ofList] at hvalue ⊢
  exact unmarked_of_readQuoted hvalue

/-! ### Rows of words -/

/-- A word of the form begins with no blank. -/
theorem spelling_begins_of_formed {w : Word} (h : w.Formed) :
    ∃ c tail, w.spelling = c :: tail ∧ isBlank c = false := by
  match w, h with
  | ⟨none, .bare content⟩, h => exact h.begins_not_blank
  | ⟨none, .quoted content⟩, _ => exact ⟨'\"', _, rfl, by decide⟩
  | ⟨some key, .bare content⟩, h =>
    obtain ⟨c, tail, htail, hc⟩ := h.1.begins_not_blank
    exact ⟨c, tail ++ '=' :: content.toList, by simp [Word.spelling, Piece.spelling, htail], hc⟩
  | ⟨some key, .quoted content⟩, h =>
    obtain ⟨c, tail, htail, hc⟩ := IsBare.begins_not_blank h
    exact ⟨c, tail ++ '=' :: (Piece.quoted content).spelling,
      by simp only [Word.spelling, htail, List.cons_append], hc⟩

/-- **A row of words reads as it is written exactly when no word of it is ambiguous.** -/
theorem readWords_spaced_iff :
    ∀ words : List Word, (∀ w ∈ words, w.Formed) →
      (readWords (spaced words) = .ok words ↔ ∀ w ∈ words, w.Unambiguous) := by
  intro words
  induction words with
  | nil =>
    intro _
    have hread : readWords (spaced []) = .ok [] := by
      rw [readWords]
      rfl
    simp [hread]
  | cons w rest ih =>
    intro hformed
    have hw := hformed w (by simp)
    have ihRest := ih fun other hmem => hformed other (by simp [hmem])
    obtain ⟨c, tail, hw', hblank⟩ := spelling_begins_of_formed hw
    have hspelling : w.spelling ++ spaced rest = c :: (tail ++ spaced rest) := by
      rw [hw', List.cons_append]
    rw [readWords_spaced_cons hw' hblank]
    constructor
    · intro h
      cases hword : readWord c (tail ++ spaced rest) with
      | error fault => rw [hword] at h; cases h
      | ok read =>
        obtain ⟨word, after⟩ := read
        rw [hword] at h
        dsimp only at h
        cases hafter : readWords after with
        | error fault => rw [hafter] at h; cases h
        | ok later =>
          rw [hafter] at h
          cases h
          -- the first word is read back, so the reader is where the row goes on
          have hunambiguous := unambiguous_of_readWord hw hspelling hword
          have hsame := readWord_of_formed hw hunambiguous hspelling (ends_spaced rest)
          rw [hword, Except.ok.injEq, Prod.mk.injEq] at hsame
          rw [hsame.2] at hafter
          rintro other (_ | ⟨_, hother⟩)
          · exact hunambiguous
          · exact ihRest.mp hafter other hother
    · intro h
      have hrest := ihRest.mpr fun other hmem => h other (by simp [hmem])
      rw [readWord_of_formed hw (h w (by simp)) hspelling (ends_spaced rest)]
      dsimp only
      rw [hrest]

/-! ### Expressions -/

/-- What the parameters stand for, the positional ones first. -/
def values (e : Expression) : List Param :=
  e.params ++ e.hash.map (·.2)

/-- The word of a parameter that is no number is the one it was made from. -/
theorem piece_toParam {piece : Piece} (h : ∀ value, piece.toParam ≠ .number value) :
    piece.toParam.piece = piece := by
  cases piece with
  | quoted content => rfl
  | bare content =>
    simp only [Piece.toParam, bareParam] at h ⊢
    split
    · rename_i htrue
      rw [htrue]
      rfl
    · rename_i htrue
      rw [if_neg htrue] at h
      split
      · rename_i hfalse
        rw [hfalse]
        rfl
      · rename_i hfalse
        rw [if_neg hfalse] at h
        split
        · rename_i hnumeric
          rw [if_pos hnumeric] at h
          cases hread : Number.read? content with
          | none => rfl
          | some value =>
            rw [hread] at h
            exact absurd rfl (h value)
        · rfl

/-- The words that arguments without a number were made from. -/
theorem words_of_arguments :
    ∀ (words : List Word) (named : Bool) {params : List Param} {hash : List (String × Param)},
      arguments named words = .ok (params, hash) →
      (∀ value, .number value ∉ params ++ hash.map (·.2)) →
        (named = true → params = []) ∧
          words = params.map (⟨none, Param.piece ·⟩) ++
            hash.map fun (key, value) => ⟨some key, value.piece⟩ := by
  intro words
  induction words with
  | nil =>
    intro named params hash h _
    cases h
    exact ⟨fun _ => rfl, rfl⟩
  | cons w rest ih =>
    intro named params hash h hnumber
    obtain ⟨key, piece⟩ := w
    cases key with
    | some key =>
      obtain ⟨⟨params', hash'⟩, hrest, heq⟩ := exists_of_bind_ok h
      cases heq
      have hno : ∀ value, piece.toParam ≠ .number value := fun value heq =>
        hnumber value (by simp [heq])
      obtain ⟨hnil, hwords⟩ := ih true hrest fun value hmem =>
        hnumber value (by simp at hmem ⊢; tauto)
      rw [hnil rfl] at hwords ⊢
      refine ⟨fun _ => rfl, ?_⟩
      rw [hwords]
      simp [piece_toParam hno]
    | none =>
      cases named with
      | true => cases h
      | false =>
        obtain ⟨⟨params', hash'⟩, hrest, heq⟩ := exists_of_bind_ok h
        cases heq
        have hno : ∀ value, piece.toParam ≠ .number value := fun value heq =>
          hnumber value (by simp [heq])
        obtain ⟨-, hwords⟩ := ih false hrest fun value hmem =>
          hnumber value (by simp at hmem ⊢; tauto)
        refine ⟨by simp, ?_⟩
        rw [hwords]
        simp [piece_toParam hno]

/-- An expression without a number was made from the words it is written as. -/
theorem words_of_read {text : List Char} {e : Expression} (h : read text = .ok e)
    (hnumber : ∀ value, .number value ∉ e.values) :
    readWords text = .ok e.words ∧ ofWords e.words = .ok e := by
  obtain ⟨words, hread, hwords⟩ := exists_of_bind_ok h
  have hsame : words = e.words := by
    match words, hwords with
    | ⟨none, .bare path⟩ :: rest, hwords =>
      obtain ⟨⟨params, hash⟩, harguments, heq⟩ := exists_of_bind_ok hwords
      cases heq
      obtain ⟨-, hrest⟩ := words_of_arguments rest false harguments hnumber
      rw [hrest]
      rfl
    | ⟨none, .quoted _⟩ :: _, hwords => cases hwords
    | ⟨some _, _⟩ :: _, hwords => cases hwords
  rw [← hsame]
  exact ⟨hread, hwords⟩

/-- The strings in quotes, word by word, are those that the parameters stand for. -/
theorem forall_quoted_iff {Holds : String → Prop} (e : Expression) :
    (∀ w ∈ e.words, ∀ content, w.value = .quoted content → Holds content) ↔
      ∀ content, Param.string content ∈ e.values → Holds content := by
  have hpiece : ∀ {param : Param} {content : String},
      param.piece = .quoted content ↔ param = .string content := by
    intro param content
    cases param <;> simp [Param.piece]
  constructor
  · intro h content hmem
    rcases List.mem_append.mp hmem with hparam | hhash
    · refine h ⟨none, .quoted content⟩ ?_ content rfl
      simp only [words, List.mem_cons, List.mem_append, List.mem_map]
      exact .inr (.inl ⟨_, hparam, rfl⟩)
    · obtain ⟨⟨key, value⟩, hentry, rfl⟩ := List.mem_map.mp hhash
      refine h ⟨some key, .quoted content⟩ ?_ content rfl
      simp only [words, List.mem_cons, List.mem_append, List.mem_map]
      exact .inr (.inr ⟨_, hentry, rfl⟩)
  · intro h w hw content hvalue
    simp only [words, List.mem_cons, List.mem_append, List.mem_map] at hw
    rcases hw with rfl | ⟨param, hparam, rfl⟩ | ⟨entry, hentry, rfl⟩
    · cases hvalue
    · rw [hpiece.mp hvalue] at hparam
      exact h content (List.mem_append.mpr (.inl hparam))
    · refine h content (List.mem_append.mpr (.inr (List.mem_map.mpr ⟨entry, hentry, ?_⟩)))
      exact hpiece.mp hvalue

section Rereading

variable {body : List Char} {e : Expression} (h : read body = .ok e)
  (hnumber : ∀ value, .number value ∉ e.values)

include h hnumber

/-- The written form gives the words back exactly when none is ambiguous. -/
theorem readWords_text_iff :
    readWords e.text.toList = .ok e.words ↔
      ∀ content, Param.string content ∈ e.values → Unmarked content.toList := by
  have hspaced : readWords e.text.toList = readWords (spaced e.words) := by
    rw [spaced_words, readWords_cons_of_blank (by decide)]
  rw [hspaced, readWords_spaced_iff e.words (formed_of_readWords (words_of_read h hnumber).1),
    ← forall_quoted_iff]
  rfl

/-- An expression whose strings have no misleading backslash comes back. -/
theorem read_text_of_unmarked
    (hstrings : ∀ content, Param.string content ∈ e.values → Unmarked content.toList) :
    read e.text.toList = .ok e := by
  rw [read, (readWords_text_iff h hnumber).mpr hstrings]
  exact (words_of_read h hnumber).2

/-- **An expression without a number comes back from its written form exactly when no string of
it has a misleading backslash.** -/
theorem read_text_iff :
    read e.text.toList = .ok e ↔
      ∀ content, Param.string content ∈ e.values → Unmarked content.toList := by
  constructor
  · intro hread
    exact (readWords_text_iff h hnumber).mp (words_of_read hread hnumber).1
  · exact read_text_of_unmarked h hnumber

end Rereading

/-- In single quotes a backslash before a double quote is kept; it is misleading once both are
written in double quotes. -/
theorem read_text_iff_of_single_quotes :
    let e : Expression := ⟨"p", [.path "q"], [("a", .string "\\\"")]⟩
    read "p q a='\\\"'".toList = .ok e ∧ (∀ value, .number value ∉ e.values) ∧
      (read e.text.toList = .ok e ↔
        ∀ content, Param.string content ∈ e.values → Unmarked content.toList) := by
  intro e
  have hread : read "p q a='\\\"'".toList = .ok e := by decide +kernel
  have hnumber : ∀ value, .number value ∉ e.values := by simp [e, values]
  exact ⟨hread, hnumber, read_text_iff hread hnumber⟩

end Expression

end TemplateTree
