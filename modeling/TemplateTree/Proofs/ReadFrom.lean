/-
What words are read from.

The readers of words as relations between a text, what is read, and what is left: one constructor
for each way a reader can go.  They say how much of a text a word takes up and what of it is kept,
which is all that is needed to compare an expression with the text it came from.

`Braces` is the first use of that.  To read drops marks and quotes, and to write puts them back, and
none of them is a brace.  So where closing braces stand together in the written form of an
expression, as many stood together in the text.
-/
import TemplateTree.Proofs.Plain
import TemplateTree.Proofs.Rereading

namespace TemplateTree

namespace Expression

/-- A string as it is read: the text behind the opening quote, its value, and what is left. -/
inductive Quoted (quote : Char) : List Char → List Char → List Char → Prop
  | close (rest : List Char) : Quoted quote (quote :: rest) [] rest
  | dropMark {c : Char} (hc : c = quote ∨ c = '\\') {text value rest : List Char}
    (h : Quoted quote text value rest) : Quoted quote ('\\' :: c :: text) (c :: value) rest
  | keepMark {c : Char} (hc : ¬ (c = quote ∨ c = '\\')) {text value rest : List Char}
    (h : Quoted quote text value rest) : Quoted quote ('\\' :: c :: text) ('\\' :: c :: value) rest
  | cons {c : Char} (hquote : c ≠ quote) (hslash : c ≠ '\\') {text value rest : List Char}
    (h : Quoted quote text value rest) : Quoted quote (c :: text) (c :: value) rest

theorem quoted_of_readQuoted {quote : Char} {text value rest : List Char}
    (h : readQuoted quote text = .ok (value, rest)) : Quoted quote text value rest := by
  fun_induction readQuoted quote text generalizing value rest with
  | case1 => cases h
  | case2 c tail ih =>
    obtain ⟨⟨later, left⟩, hlater, heq⟩ := exists_of_bind_ok h
    dsimp only at heq
    split at heq
    · rename_i hmark
      cases heq
      exact .dropMark hmark (ih hlater)
    · rename_i hmark
      cases heq
      exact .keepMark hmark (ih hlater)
  | case3 tail =>
    cases h
    exact .close tail
  | case4 => cases h
  | case5 c tail _ hquote hslash ih =>
    obtain ⟨⟨later, left⟩, hlater, heq⟩ := exists_of_bind_ok h
    cases heq
    exact .cons hquote hslash (ih hlater)

/-- A value as it is read. -/
inductive Piece.ReadFrom : Piece → List Char → List Char → Prop
  | bare (content rest : List Char) :
    ReadFrom (.bare (String.ofList content)) (content ++ rest) rest
  | quoted {quote : Char} (hquote : isQuote quote = true) {text value rest : List Char}
    (h : Quoted quote text value rest) :
    ReadFrom (.quoted (String.ofList value)) (quote :: text) rest

/-- A word as it is read. -/
inductive Word.ReadFrom : Word → List Char → List Char → Prop
  | positional {value : Piece} {text rest : List Char} (h : value.ReadFrom text rest) :
    ReadFrom ⟨none, value⟩ text rest
  | named (key : List Char) {value : Piece} {text rest : List Char} (h : value.ReadFrom text rest) :
    ReadFrom ⟨some (String.ofList key), value⟩ (key ++ '=' :: text) rest

theorem readFrom_of_readValue {text rest : List Char} {value : Piece}
    (h : readValue text = .ok (value, rest)) : value.ReadFrom text rest := by
  unfold readValue at h
  split at h
  · cases h
  · rename_i c tail
    split at h
    · rename_i hquote
      obtain ⟨⟨content, left⟩, hread, heq⟩ := exists_of_bind_ok h
      cases heq
      exact .quoted hquote (quoted_of_readQuoted hread)
    · split at h
      · cases h
      · cases h
        have hbare := Piece.ReadFrom.bare ((c :: tail).takeWhile (!isBlank ·))
          ((c :: tail).dropWhile (!isBlank ·))
        rwa [List.takeWhile_append_dropWhile] at hbare

theorem readFrom_of_readWord {c : Char} {text rest : List Char} {w : Word}
    (h : readWord c text = .ok (w, rest)) : w.ReadFrom (c :: text) rest := by
  unfold readWord at h
  split at h
  · rename_i hquote
    obtain ⟨⟨content, left⟩, hread, heq⟩ := exists_of_bind_ok h
    cases heq
    exact .positional (.quoted hquote (quoted_of_readQuoted hread))
  · split at h
    · cases h
    · have htext : c :: text =
          (c :: text.takeWhile isBareChar) ++ text.dropWhile isBareChar := by
        rw [List.cons_append, List.takeWhile_append_dropWhile]
      dsimp only at h
      split at h
      · rename_i value hdrop
        obtain ⟨⟨piece, left⟩, hread, heq⟩ := exists_of_bind_ok h
        cases heq
        rw [htext, hdrop]
        exact .named _ (readFrom_of_readValue hread)
      · cases h
        rw [htext]
        exact .positional (.bare _ _)

/-- A row of words as it is read. -/
inductive WordsFrom : List Word → List Char → Prop
  | nil {blanks : List Char} (hblanks : ∀ c ∈ blanks, isBlank c = true) : WordsFrom [] blanks
  | cons {blanks : List Char} (hblanks : ∀ c ∈ blanks, isBlank c = true) {w : Word}
    {text rest : List Char} (hw : w.ReadFrom text rest) {words : List Word}
    (h : WordsFrom words rest) : WordsFrom (w :: words) (blanks ++ text)

theorem wordsFrom_of_readWords {text : List Char} {words : List Word}
    (h : readWords text = .ok words) : WordsFrom words text := by
  have hblanks : ∀ c ∈ text.takeWhile isBlank, isBlank c = true := fun c hc =>
    List.mem_takeWhile_imp hc
  fun_induction readWords text generalizing words with
  | case1 text htrim =>
    cases h
    exact .nil (List.dropWhile_eq_nil_iff.mp htrim)
  | case2 => cases h
  | case3 => cases h
  | case4 text c tail htrim w rest hword later hlater ih =>
    cases h
    have hsplit : text = text.takeWhile isBlank ++ (c :: tail) := by
      rw [← htrim, trimStart, List.takeWhile_append_dropWhile]
    rw [hsplit]
    exact .cons hblanks (readFrom_of_readWord hword) (ih hlater fun c hc => List.mem_takeWhile_imp hc)

end Expression

/-! ### Braces -/

/-- A text of closing braces only. -/
def Braces (sought : List Char) : Prop :=
  ∀ c ∈ sought, c = '\x7d'

namespace Braces

variable {sought : List Char}

theorem closing (triple : Bool) : Braces (Window.closing triple).toList := fun _ =>
  Window.mem_closing_iff.mp

theorem not_mem (h : Braces sought) {c : Char} (hc : c ≠ '\x7d') : c ∉ sought := fun hmem =>
  hc (h c hmem)

/-- Braces do not begin with another character. -/
theorem eq_nil_of_prefix (h : Braces sought) {c : Char} (hc : c ≠ '\x7d') {rest : List Char}
    (hpre : sought <+: c :: rest) : sought = [] := by
  cases sought with
  | nil => rfl
  | cons d tail =>
    obtain ⟨rfl, -⟩ := List.cons_prefix_cons.mp hpre
    exact absurd (h d (by simp)) hc

end Braces

/-- The first text has all the braces of the second: those it begins with, and those that stand
together anywhere. -/
def Covers (text value : List Char) : Prop :=
  ∀ sought, Braces sought →
    (sought <+: value → sought <+: text) ∧ (sought <:+: value → sought <:+: text)

namespace Covers

theorem of_nil (text : List Char) : Covers text [] := by
  intro sought _
  refine ⟨fun hpre => ?_, fun hsub => ?_⟩
  · rw [List.prefix_nil.mp hpre]
    exact List.nil_prefix
  · rw [List.infix_nil.mp hsub]
    exact List.nil_infix

theorem cons (c : Char) {text value : List Char} (h : Covers text value) :
    Covers (c :: text) (c :: value) := by
  intro sought hbraces
  have hpre : ∀ part, Braces part → part <+: c :: value → part <+: c :: text := by
    intro part hpart hvalue
    cases part with
    | nil => exact List.nil_prefix
    | cons d tail =>
      obtain ⟨rfl, htail⟩ := List.cons_prefix_cons.mp hvalue
      have htail' := (h tail fun e he => hpart e (by simp [he])).1 htail
      exact List.cons_prefix_cons.mpr ⟨rfl, htail'⟩
  refine ⟨hpre sought hbraces, fun hsub => ?_⟩
  rcases List.infix_cons_iff.mp hsub with hvalue | hvalue
  · exact (hpre sought hbraces hvalue).isInfix
  · exact ((h sought hbraces).2 hvalue).trans (List.suffix_cons c text).isInfix

/-- What stands before another character than a brace may be left out. -/
theorem drop (before : Char) {c : Char} (hc : c ≠ '\x7d') {text value : List Char}
    (h : Covers text (c :: value)) : Covers (before :: text) (c :: value) := by
  intro sought hbraces
  refine ⟨fun hpre => ?_, fun hsub => ?_⟩
  · rw [hbraces.eq_nil_of_prefix hc hpre]
    exact List.nil_prefix
  · exact ((h sought hbraces).2 hsub).trans (List.suffix_cons before text).isInfix

end Covers

namespace Expression

/-- **A string has no braces together that its text does not have together.** -/
theorem Quoted.covers {quote : Char} (hquote : quote ≠ '\x7d') {text value rest : List Char}
    (h : Quoted quote text value rest) : Covers text value := by
  induction h with
  | close rest => exact .of_nil _
  | @dropMark c hc text value rest h ih =>
    have hbrace : c ≠ '\x7d' := by
      rcases hc with rfl | rfl
      · exact hquote
      · decide
    exact (ih.cons c).drop '\\' hbrace
  | keepMark hc h ih => exact (ih.cons _).cons '\\'
  | cons hquote hslash h ih => exact ih.cons _

theorem Quoted.rest_suffix {quote : Char} {text value rest : List Char}
    (h : Quoted quote text value rest) : rest <:+ text := by
  induction h with
  | close rest => exact List.suffix_cons quote rest
  | dropMark hc h ih => exact (ih.trans (List.suffix_cons _ _)).trans (List.suffix_cons _ _)
  | keepMark hc h ih => exact (ih.trans (List.suffix_cons _ _)).trans (List.suffix_cons _ _)
  | cons hquote hslash h ih => exact ih.trans (List.suffix_cons _ _)

section Written

variable {sought text rest : List Char} (hbraces : Braces sought)

include hbraces

/-- What is found in a value as it is written is found in the text that the value was read from. -/
theorem Piece.ReadFrom.infix_of_spelling {p : Piece} (h : p.ReadFrom text rest)
    (hsub : sought <:+: p.spelling) : sought <:+: text := by
  cases h with
  | bare content rest =>
    rw [Piece.spelling, String.toList_ofList] at hsub
    exact hsub.trans (List.prefix_append content rest).isInfix
  | @quoted quote hquote text value rest h =>
    have hbrace : quote ≠ '\x7d' := by
      rintro rfl
      cases hquote
    have hvalue : sought <:+: (String.ofList value).toList :=
      infix_of_infix_quoted (hbraces.not_mem (by decide)) (hbraces.not_mem (by decide)) hsub
    rw [String.toList_ofList] at hvalue
    exact (((h.covers hbrace) sought hbraces).2 hvalue).trans (List.suffix_cons quote text).isInfix

theorem Word.ReadFrom.infix_of_spelling {w : Word} (h : w.ReadFrom text rest)
    (hsub : sought <:+: w.spelling) : sought <:+: text := by
  cases h with
  | positional h => exact h.infix_of_spelling hbraces hsub
  | named key h =>
    rw [Word.spelling, String.toList_ofList] at hsub
    rcases infix_of_append_cons (hbraces.not_mem (by decide)) hsub with hkey | hvalue
    · exact hkey.trans (List.prefix_append _ _).isInfix
    · refine (h.infix_of_spelling hbraces hvalue).trans ?_
      exact ((List.suffix_cons '=' _).trans (List.suffix_append key _)).isInfix

end Written

theorem Piece.ReadFrom.rest_suffix {p : Piece} {text rest : List Char} (h : p.ReadFrom text rest) :
    rest <:+ text := by
  cases h with
  | bare content rest => exact List.suffix_append content rest
  | quoted hquote h => exact h.rest_suffix.trans (List.suffix_cons _ _)

theorem Word.ReadFrom.rest_suffix {w : Word} {text rest : List Char} (h : w.ReadFrom text rest) :
    rest <:+ text := by
  cases h with
  | positional h => exact h.rest_suffix
  | named key h =>
    exact h.rest_suffix.trans ((List.suffix_cons '=' _).trans (List.suffix_append key _))

theorem WordsFrom.infix_of_spelling {sought : List Char} (hbraces : Braces sought)
    {words : List Word} {text : List Char} (h : WordsFrom words text) :
    ∀ w ∈ words, sought <:+: w.spelling → sought <:+: text := by
  induction h with
  | nil => simp
  | @cons blanks hblanks w text rest hw words h ih =>
    have htext : text <:+: blanks ++ text := (List.suffix_append blanks text).isInfix
    rintro other (_ | ⟨_, hother⟩) hsub
    · exact (hw.infix_of_spelling hbraces hsub).trans htext
    · exact ((ih other hother hsub).trans hw.rest_suffix.isInfix).trans htext

/-- **An expression without a number, written out, does not hold the delimiter that closes a window,
if the text that it was read from does not.** -/
theorem not_closing_text {text : List Char} {e : Expression} (h : read text = .ok e)
    (hnumber : ∀ value, .number value ∉ e.values) {triple : Bool}
    (hfree : ¬ (Window.closing triple).toList <:+: text) :
    ¬ (Window.closing triple).toList <:+: e.text.toList := by
  have hfrom := wordsFrom_of_readWords (words_of_read h hnumber).1
  intro hsub
  refine @free_spaced triple e.words (fun w hw hword => ?_) ?_
  · exact hfree (hfrom.infix_of_spelling (Braces.closing triple) w hw hword)
  · rw [spaced_words]
    exact hsub.trans (List.suffix_cons ' ' _).isInfix

end Expression

end TemplateTree
