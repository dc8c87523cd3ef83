/-
Texts weighed.

To be told apart from a part of it, a text is weighed: a blank weighs nothing, a single quote is
heavy, and any other character weighs one.  What an expression is written as weighs no more than the
text that it was read from.  Blanks between words are all that can come in, but for the mark before
a double quote in a string; and where the string had none, it stood in single quotes, and these are
given up for double quotes.  So a single quote has to weigh as much as all marks that a text may
need, and its length is enough.

It follows that an expression is not read from a part of what it is written as.
-/
import TemplateTree.Proofs.ReadFrom

namespace TemplateTree

/-- What a character weighs, where a single quote is heavy. -/
def weight (heavy : Nat) (c : Char) : Nat :=
  if isBlank c then 0 else if c = '\'' then heavy + 1 else 1

/-- What a text weighs. -/
def weigh (heavy : Nat) (text : List Char) : Nat :=
  (text.map (weight heavy)).sum

variable {heavy : Nat}

@[simp] theorem weigh_nil : weigh heavy [] = 0 := rfl

@[simp] theorem weigh_cons (c : Char) (text : List Char) :
    weigh heavy (c :: text) = weight heavy c + weigh heavy text := by
  simp [weigh]

@[simp] theorem weigh_append (first second : List Char) :
    weigh heavy (first ++ second) = weigh heavy first + weigh heavy second := by
  simp [weigh]

theorem weight_quote : weight heavy '\'' = heavy + 1 := rfl

theorem weight_of_ne {c : Char} (hblank : isBlank c = false) (hquote : c ≠ '\'') :
    weight heavy c = 1 := by
  simp [weight, hblank, hquote]

theorem weigh_of_blank {text : List Char} (h : ∀ c ∈ text, isBlank c = true) :
    weigh heavy text = 0 := by
  induction text with
  | nil => rfl
  | cons c rest ih => simp [weight, h c (by simp), ih fun d hd => h d (by simp [hd])]

theorem blank_of_weigh {text : List Char} (h : weigh heavy text = 0) :
    ∀ c ∈ text, isBlank c = true := by
  intro c hc
  have hzero : weight heavy c = 0 := List.sum_eq_zero_iff.mp h _ (List.mem_map_of_mem hc)
  by_contra hblank
  rw [weight, if_neg hblank] at hzero
  split at hzero <;> simp at hzero

theorem weigh_le_of_isInfix {part text : List Char} (h : part <:+: text) :
    weigh heavy part ≤ weigh heavy text := by
  obtain ⟨before, after, rfl⟩ := h
  simp only [weigh_append]
  omega

namespace Expression

variable {text value rest : List Char}

/-- A string that stood in double quotes weighs what its text does. -/
theorem Quoted.weigh_double (h : Quoted '\"' text value rest) (hslash : '\\' ∉ value) :
    weigh heavy (marked value) + 1 + weigh heavy rest = weigh heavy text := by
  have hdouble : weight heavy '\"' = 1 := weight_of_ne (by decide) (by decide)
  have hmark : weight heavy '\\' = 1 := weight_of_ne (by decide) (by decide)
  induction h with
  | close rest => rw [marked, List.flatMap_nil, weigh_nil, weigh_cons, hdouble, Nat.zero_add]
  | @dropMark c hc text value rest h ih =>
    obtain ⟨hne, hlater⟩ : '\\' ≠ c ∧ '\\' ∉ value := by simpa using hslash
    obtain rfl : c = '\"' := hc.resolve_right hne.symm
    have hrest := ih hlater
    rw [marked_quote, weigh_cons, weigh_cons, weigh_cons, weigh_cons]
    omega
  | keepMark hc h ih => simp at hslash
  | @cons c hquote hnot text value rest h ih =>
    have hrest := ih fun hmem => hslash (by simp [hmem])
    rw [marked_cons hquote, weigh_cons, weigh_cons]
    omega

/-- One that stood in single quotes weighs less, but for the marks that it needs now. -/
theorem Quoted.weigh_single (h : Quoted '\'' text value rest) (hslash : '\\' ∉ value) :
    weigh heavy (marked value) + (heavy + 1) + weigh heavy rest ≤
      weigh heavy text + text.length := by
  have hdouble : weight heavy '\"' = 1 := weight_of_ne (by decide) (by decide)
  have hmark : weight heavy '\\' = 1 := weight_of_ne (by decide) (by decide)
  induction h with
  | close rest =>
    rw [marked, List.flatMap_nil, weigh_nil, weigh_cons, weight_quote]
    omega
  | @dropMark c hc text value rest h ih =>
    obtain ⟨hne, hlater⟩ : '\\' ≠ c ∧ '\\' ∉ value := by simpa using hslash
    obtain rfl : c = '\'' := hc.resolve_right hne.symm
    have hrest := ih hlater
    rw [marked_cons (by decide), weigh_cons, weigh_cons, weigh_cons, List.length_cons,
      List.length_cons]
    omega
  | keepMark hc h ih => simp at hslash
  | @cons c hquote hnot text value rest h ih =>
    have hrest := ih fun hmem => hslash (by simp [hmem])
    rw [weigh_cons, List.length_cons]
    by_cases hc : c = '\"'
    · rw [hc, marked_quote, weigh_cons, weigh_cons]
      omega
    · rw [marked_cons hc, weigh_cons]
      omega

/-- A value without backslashes. -/
def Piece.Slashless (p : Piece) : Prop :=
  ∀ content, p = .quoted content → '\\' ∉ content.toList

theorem Piece.ReadFrom.weigh_le {p : Piece} (h : p.ReadFrom text rest) (hslash : p.Slashless)
    (hheavy : text.length ≤ heavy) :
    weigh heavy p.spelling + weigh heavy rest ≤ weigh heavy text := by
  cases h with
  | bare content rest => rw [Piece.spelling, String.toList_ofList, weigh_append]
  | @quoted quote hquote text value rest h =>
    have hvalue : '\\' ∉ value := by
      simpa using hslash _ rfl
    have hdouble : weight heavy '\"' = 1 := weight_of_ne (by decide) (by decide)
    rw [Piece.spelling, String.toList_ofList, weigh_cons, weigh_append, weigh_cons, weigh_cons,
      weigh_nil, hdouble]
    rw [List.length_cons] at hheavy
    obtain rfl | rfl : quote = '\"' ∨ quote = '\'' := by simpa [isQuote] using hquote
    · have hread := @Quoted.weigh_double heavy _ _ _ h hvalue
      omega
    · have hread := @Quoted.weigh_single heavy _ _ _ h hvalue
      rw [weight_quote]
      omega

theorem Word.ReadFrom.weigh_le {w : Word} (h : w.ReadFrom text rest) (hslash : w.value.Slashless)
    (hheavy : text.length ≤ heavy) :
    weigh heavy w.spelling + weigh heavy rest ≤ weigh heavy text := by
  cases h with
  | positional h => exact h.weigh_le hslash hheavy
  | named key h =>
    rw [List.length_append, List.length_cons] at hheavy
    have hvalue := @Piece.ReadFrom.weigh_le heavy _ _ _ h hslash (by omega)
    rw [Word.spelling, String.toList_ofList, weigh_append, weigh_append, weigh_cons, weigh_cons]
    omega

theorem WordsFrom.weigh_le {words : List Word} (h : WordsFrom words text)
    (hslash : ∀ w ∈ words, w.value.Slashless) (hheavy : text.length ≤ heavy) :
    weigh heavy (spaced words) ≤ weigh heavy text := by
  induction h with
  | nil => simp [spaced]
  | @cons blanks hblanks w text rest hw words h ih =>
    have hlength := hw.rest_suffix.length_le
    rw [List.length_append] at hheavy
    have hword := @Word.ReadFrom.weigh_le heavy _ _ _ hw (hslash w (by simp)) (by omega)
    have hrest := ih (fun other hmem => hslash other (by simp [hmem])) (by omega)
    have hspace : weight heavy ' ' = 0 := rfl
    rw [spaced, List.flatMap_cons, ← spaced, weigh_append, weigh_cons, weigh_append,
      weigh_of_blank hblanks, hspace]
    omega

/-- **An expression weighs no more than the text that it was read from**, if it has no number and
no string with a backslash. -/
theorem weigh_text_le {e : Expression} (h : read text = .ok e)
    (hnumber : ∀ value, .number value ∉ e.values)
    (hstrings : ∀ content, .string content ∈ e.values → '\\' ∉ content.toList)
    (hheavy : text.length ≤ heavy) : weigh heavy e.text.toList ≤ weigh heavy text := by
  have hslash : ∀ w ∈ e.words, w.value.Slashless := e.forall_quoted_iff.mpr hstrings
  have hspaced := (wordsFrom_of_readWords (words_of_read h hnumber).1).weigh_le hslash hheavy
  rw [spaced_words, weigh_cons] at hspaced
  omega

end Expression

end TemplateTree
