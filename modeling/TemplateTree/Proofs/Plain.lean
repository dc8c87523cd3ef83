/-
Plain expressions.

An expression is plain if its names are words of a few ASCII characters, its strings can
be told from what surrounds them, and its numbers are finite.  That is more than it takes for the expression to
be read as it was written: it also has to stand in a window, where nothing in it may look
like the delimiter that closes the window, and where its first characters decide what the
window says.

Words and blanks keep the delimiters out.  A delimiter that is found in a row of words is
found in one of them, since it has no blank in it, and in a string of that word, since it
has no quote either.
-/
import TemplateTree.Proofs.Numerals
import TemplateTree.Proofs.Spelling

namespace TemplateTree

/-! ### Looking for a delimiter -/

/-- What is found around a character that it does not have is found on one side. -/
theorem infix_of_append_cons {sought before after : List Char} {c : Char} (hc : c ∉ sought)
    (h : sought <:+: before ++ c :: after) : sought <:+: before ∨ sought <:+: after := by
  have hnil : ∀ part : List Char, c ∉ part → part <+: c :: after → part = [] := by
    intro part hpart hpre
    cases part with
    | nil => rfl
    | cons d rest =>
      obtain ⟨rfl, -⟩ := List.cons_prefix_cons.mp hpre
      exact absurd List.mem_cons_self hpart
  rcases List.infix_append_iff.mp h with hbefore | hafter | ⟨first, second, rfl, hfirst, hsecond⟩
  · exact Or.inl hbefore
  · rcases List.infix_cons_iff.mp hafter with hpre | hafter'
    · rw [hnil sought hc hpre]
      exact Or.inl (List.nil_infix)
    · exact Or.inr hafter'
  · have hnil := hnil second (fun hmem => hc (by simp [hmem])) hsecond
    rw [hnil, List.append_nil]
    exact Or.inl hfirst.isInfix

theorem prefix_of_prefix_marked :
    ∀ (value sought : List Char), '\"' ∉ sought → '\\' ∉ sought → sought <+: marked value →
      sought <+: value := by
  intro value
  induction value with
  | nil => intro sought _ _ h; exact h
  | cons c rest ih =>
    intro sought hquote hslash h
    cases sought with
    | nil => exact List.nil_prefix
    | cons d sought =>
      by_cases hc : c = '\"'
      · rw [hc, marked, List.flatMap_cons, if_pos rfl] at h
        obtain ⟨rfl, -⟩ := List.cons_prefix_cons.mp h
        exact absurd List.mem_cons_self hslash
      · rw [marked_cons hc] at h
        obtain ⟨rfl, hrest⟩ := List.cons_prefix_cons.mp h
        exact List.cons_prefix_cons.mpr ⟨rfl, ih sought (fun hmem => hquote (by simp [hmem]))
          (fun hmem => hslash (by simp [hmem])) hrest⟩

/-- What is found in a string as it is written is found in the string. -/
theorem infix_of_infix_marked :
    ∀ (value sought : List Char), '\"' ∉ sought → '\\' ∉ sought → sought <:+: marked value →
      sought <:+: value := by
  intro value
  induction value with
  | nil => intro sought _ _ h; exact h
  | cons c rest ih =>
    intro sought hquote hslash h
    have hlater : sought <:+: marked rest → sought <:+: c :: rest := fun hrest =>
      (ih sought hquote hslash hrest).trans (List.suffix_cons c rest).isInfix
    by_cases hc : c = '\"'
    · have hunfold : marked (c :: rest) = [] ++ '\\' :: ([] ++ '\"' :: marked rest) := by
        simp [marked, hc]
      rw [hunfold] at h
      rcases infix_of_append_cons hslash h with hempty | hquoted
      · rw [List.eq_nil_of_infix_nil hempty]
        exact List.nil_infix
      · rcases infix_of_append_cons hquote hquoted with hempty | hrest
        · rw [List.eq_nil_of_infix_nil hempty]
          exact List.nil_infix
        · exact hlater hrest
    · rw [marked_cons hc] at h
      rcases List.infix_cons_iff.mp h with hpre | hrest
      · rw [← marked_cons hc] at hpre
        exact (prefix_of_prefix_marked _ _ hquote hslash hpre).isInfix
      · exact hlater hrest

/-! ### Words -/

/-- A character of a word. -/
def isWordChar (c : Char) : Bool :=
  isAsciiLetter c || c.isDigit || c == '.' || c == '_' || c == '-'

/-- A word: a letter, and characters of words after it. -/
def IsWord (name : String) : Prop :=
  ∃ first rest, name.toList = first :: rest ∧ isAsciiLetter first = true ∧
    ∀ c ∈ rest, isWordChar c = true

/-- The characters of words by their numbers. -/
theorem toNat_of_isWordChar {c : Char} (h : isWordChar c = true) :
    c.toNat = 45 ∨ c.toNat = 46 ∨ (48 ≤ c.toNat ∧ c.toNat ≤ 57) ∨
      (65 ≤ c.toNat ∧ c.toNat ≤ 90) ∨ c.toNat = 95 ∨ (97 ≤ c.toNat ∧ c.toNat ≤ 122) := by
  have hle : ∀ a b : Char, a ≤ b ↔ a.toNat ≤ b.toNat := fun a b => Iff.rfl
  have hdigit : c.isDigit = true ↔ '0' ≤ c ∧ c ≤ '9' := by simp [Char.isDigit, Char.le_def]
  simp only [isWordChar, isAsciiLetter, hdigit, Bool.or_eq_true, Bool.and_eq_true,
    decide_eq_true_eq, beq_iff_eq, hle] at h
  have hdot : c = '.' → c.toNat = 46 := by rintro rfl; rfl
  have hscore : c = '_' → c.toNat = 95 := by rintro rfl; rfl
  have hdash : c = '-' → c.toNat = 45 := by rintro rfl; rfl
  rcases h with (((((h | h) | h) | h) | h) | h)
  · exact Or.inr (Or.inr (Or.inr (Or.inr (Or.inr h))))
  · exact Or.inr (Or.inr (Or.inr (Or.inl h)))
  · exact Or.inr (Or.inr (Or.inl h))
  · exact Or.inr (Or.inl (hdot h))
  · exact Or.inr (Or.inr (Or.inr (Or.inr (Or.inl (hscore h)))))
  · exact Or.inl (hdash h)

theorem isBlank_of_isWordChar {c : Char} (h : isWordChar c = true) : isBlank c = false := by
  have hnat := toNat_of_isWordChar h
  simp only [isBlank, Bool.or_eq_false_iff, Bool.and_eq_false_iff, decide_eq_false_iff_not,
    beq_eq_false_iff_ne]
  omega

/-- A character of a word is none that directives are made of. -/
theorem ne_of_isWordChar {c d : Char} (h : isWordChar c = true) (hd : isWordChar d = false) :
    c ≠ d :=
  ne_of_apply_ne isWordChar (by simp [h, hd])

theorem isDigit_of_isAsciiLetter {c : Char} (h : isAsciiLetter c = true) : c.isDigit = false := by
  simp only [isAsciiLetter, Char.isDigit, Bool.or_eq_true, Bool.and_eq_true, decide_eq_true_eq,
    Bool.and_eq_false_iff, decide_eq_false_iff_not, Char.le_def] at h ⊢
  grind

theorem isWordChar_of_isAsciiLetter {c : Char} (h : isAsciiLetter c = true) :
    isWordChar c = true := by
  simp [isWordChar, h]

namespace IsWord

variable {name : String}

theorem ne_empty (h : IsWord name) : name ≠ "" := by
  obtain ⟨first, rest, hname, -⟩ := h
  rintro rfl
  cases hname

theorem isWordChar_of_mem (h : IsWord name) : ∀ c ∈ name.toList, isWordChar c = true := by
  obtain ⟨first, rest, hname, hfirst, hrest⟩ := h
  intro c hc
  rw [hname] at hc
  rcases List.mem_cons.mp hc with rfl | hc'
  · exact isWordChar_of_isAsciiLetter hfirst
  · exact hrest c hc'

end IsWord

namespace Expression

theorem isBare_of_isWordChar {text : List Char} (hne : text ≠ [])
    (h : ∀ c ∈ text, isWordChar c = true) : IsBare text := by
  obtain ⟨first, rest, rfl⟩ := List.exists_cons_of_ne_nil hne
  refine ⟨⟨first, rfl, ?_⟩, ?_⟩
  · have hfirst := h first (by simp)
    simp [isQuote, ne_of_isWordChar hfirst (d := '\"') (by decide),
      ne_of_isWordChar hfirst (d := '\'') (by decide)]
  · intro c hc
    have hchar := h c hc
    simp [isBareChar, isBlank_of_isWordChar hchar, ne_of_isWordChar hchar (d := '=') (by decide)]

theorem isBare_of_isWord {name : String} (h : IsWord name) : IsBare name.toList :=
  isBare_of_isWordChar (by simpa using h.ne_empty) h.isWordChar_of_mem

end Expression

/-! ### Expressions -/

/-- A parameter that can be told from what surrounds it, in a window with three braces or
with two: a path is a word, and not one of the two that stand for something else; a
string has no backslash that would be taken for a mark, and not the delimiter that closes
the window; a number is finite, since the names of the others are read as paths. -/
def Param.Plain (triple : Bool) : Param → Prop
  | .path name => IsWord name ∧ name ≠ "true" ∧ name ≠ "false"
  | .string value => Unmarked value.toList ∧ ¬ (Window.closing triple).toList <:+: value.toList
  | .number value => value.IsFinite
  | .boolean _ => True

/-- An expression whose names are words and whose parameters are plain. -/
structure Expression.Plain (triple : Bool) (e : Expression) : Prop where
  path : IsWord e.path
  notElse : e.path ≠ "else"
  params : ∀ param ∈ e.params, param.Plain triple
  hash : ∀ entry ∈ e.hash, IsWord entry.1 ∧ entry.2.Plain triple

/-- A plain expression in the window of its kind. -/
def Mustache.Plain (m : Mustache) : Prop :=
  m.expression.Plain !m.escaped

theorem not_closing_of_isWordChar (triple : Bool) {text : List Char}
    (h : ∀ c ∈ text, isWordChar c = true) : ¬ (Window.closing triple).toList <:+: text := by
  intro hsub
  have hbrace : '\x7d' ∈ text := hsub.subset (Window.mem_closing_iff.mpr rfl)
  have hchar := h _ hbrace
  simp [isWordChar, isAsciiLetter] at hchar

namespace Expression

/-- A piece that reads as it is written, holds no delimiter, and does not end like one. -/
structure Piece.Clear (triple : Bool) (p : Piece) : Prop where
  sound : p.Sound
  free : ¬ (Window.closing triple).toList <:+: p.spelling
  ends : ∃ c ∈ p.spelling.getLast?, isWordChar c = true ∨ c = '\"'

theorem Piece.clear_bare (triple : Bool) {content : String} (hne : content ≠ "")
    (h : ∀ c ∈ content.toList, isWordChar c = true) : (Piece.bare content).Clear triple := by
  have hlist : content.toList ≠ [] := by simpa using hne
  refine ⟨isBare_of_isWordChar hlist h, not_closing_of_isWordChar triple h, ?_⟩
  refine ⟨content.toList.getLast hlist, List.getLast?_eq_some_getLast hlist, Or.inl ?_⟩
  exact h _ (List.getLast_mem hlist)

/-- What has no quote and no backslash is found in a string as it is written only if it is found in
the string. -/
theorem Piece.infix_of_infix_quoted {sought : List Char} (hquote : '\"' ∉ sought)
    (hslash : '\\' ∉ sought) {content : String}
    (h : sought <:+: (Piece.quoted content).spelling) : sought <:+: content.toList := by
  have hnil : sought <:+: [] → sought <:+: content.toList := by
    intro hempty
    rw [List.eq_nil_of_infix_nil hempty]
    exact List.nil_infix
  rcases @infix_of_append_cons _ [] _ _ hquote h with hempty | hrest
  · exact hnil hempty
  · rcases infix_of_append_cons hquote hrest with hmarked | hempty
    · exact infix_of_infix_marked _ _ hquote hslash hmarked
    · exact hnil hempty

theorem Piece.getLast?_quoted (content : String) :
    (Piece.quoted content).spelling.getLast? = some '\"' := by
  rw [Piece.spelling, ← List.cons_append, List.getLast?_concat]

/-- A word with a key ends as its value does. -/
theorem Word.mem_getLast?_named {key : String} {p : Piece} {c : Char}
    (h : c ∈ p.spelling.getLast?) : c ∈ (Word.spelling ⟨some key, p⟩).getLast? := by
  rw [Word.spelling, List.append_cons]
  exact List.mem_getLast?_append_of_mem_getLast? h

theorem Piece.clear_quoted {triple : Bool} {content : String} (h : Unmarked content.toList)
    (hfree : ¬ (Window.closing triple).toList <:+: content.toList) :
    (Piece.quoted content).Clear triple := by
  refine ⟨h, ?_, ⟨'\"', Piece.getLast?_quoted content, Or.inr rfl⟩⟩
  intro hsub
  refine hfree (Piece.infix_of_infix_quoted ?_ ?_ hsub) <;> simp [Window.mem_closing_iff]

end Expression

/-- A digit, a point or a minus is a character of a word. -/
theorem isWordChar_of_isDigit {c : Char} (h : c.isDigit = true ∨ c = '.' ∨ c = '-') :
    isWordChar c = true := by
  rcases h with hdigit | rfl | rfl
  · simp [isWordChar, hdigit]
  · decide
  · decide

/-- Without a minus, the first character decides. -/
theorem Expression.looksNumeric_cons {c : Char} (h : c ≠ '-') (rest : List Char) :
    looksNumeric (c :: rest) = c.isDigit := by
  rw [looksNumeric]
  intro d tail heq
  exact absurd heq h

/-- A word that begins like a number is a number, if it reads as one. -/
theorem Expression.bareParam_of_looksNumeric {text : String} {value : Number}
    (h : looksNumeric text.toList = true) (hread : Number.read? text = some value) :
    bareParam text = .number value := by
  have hne : ∀ other : String, looksNumeric other.toList = false → text ≠ other := by
    rintro other hother rfl
    rw [h] at hother
    cases hother
  rw [bareParam, if_neg (hne "true" (by decide)), if_neg (hne "false" (by decide)), if_pos h, hread]

/-- **A finite number is written as one word, which stands for it.** -/
theorem Expression.bareParam_number {value : Number} (h : value.IsFinite) :
    (∀ c ∈ (value.text numberStyle).toList, isWordChar c = true) ∧
      bareParam (value.text numberStyle) = .number value := by
  have hread := @Number.read?_text numberStyle rfl rfl value h
  cases value with
  | notANumber | infinite negative => cases h
  | finite negative mantissa exponent =>
    obtain ⟨digits, htext, _, _, hshows, -⟩ :=
      @Number.text_finite numberStyle rfl rfl negative mantissa exponent
    obtain ⟨c, rest, hdigits, hc⟩ := hshows.begins
    refine ⟨?_, bareParam_of_looksNumeric ?_ hread⟩
    · intro d hd
      rw [htext, String.toList_append, List.mem_append] at hd
      rcases hd with hsign | hshown
      · cases negative with
        | true =>
          rw [List.mem_singleton.mp hsign]
          decide
        | false => cases hsign
      · exact isWordChar_of_isDigit ((hshows.chars d hshown).imp_right Or.inl)
    · rw [htext, String.toList_append, hdigits]
      cases negative with
      | true => exact hc
      | false =>
        have hdash : c ≠ '-' := by
          rintro rfl
          cases hc
        exact (looksNumeric_cons hdash rest).trans hc

/-- A plain parameter is written clearly, and its word stands for it. -/
theorem Param.clear_of_plain {triple : Bool} {param : Param} (h : param.Plain triple) :
    param.piece.Clear triple ∧ param.piece.toParam = param := by
  cases param with
  | path name =>
    obtain ⟨hword, htrue, hfalse⟩ := h
    refine ⟨Expression.Piece.clear_bare triple hword.ne_empty hword.isWordChar_of_mem, ?_⟩
    have hnumeric : Expression.looksNumeric name.toList = false := by
      obtain ⟨first, rest, hname, hfirst, -⟩ := hword
      have hdash : first ≠ '-' := by
        rintro rfl
        cases hfirst
      rw [hname, Expression.looksNumeric_cons hdash]
      exact isDigit_of_isAsciiLetter hfirst
    simp [piece, Expression.Piece.toParam, Expression.bareParam, htrue, hfalse, hnumeric]
  | string value => exact ⟨Expression.Piece.clear_quoted h.1 h.2, rfl⟩
  | number value =>
    obtain ⟨hchars, hbare⟩ := Expression.bareParam_number h
    refine ⟨Expression.Piece.clear_bare triple ?_ hchars, hbare⟩
    intro hempty
    rw [hempty] at hbare
    cases hbare
  | boolean value =>
    cases value with
    | true =>
      exact ⟨Expression.Piece.clear_bare triple (by decide) (List.all_eq_true.mp (by decide)), rfl⟩
    | false =>
      exact ⟨Expression.Piece.clear_bare triple (by decide) (List.all_eq_true.mp (by decide)), rfl⟩

namespace Expression

/-- A word that reads as it is written, holds no delimiter, and does not end like one. -/
structure Word.Clear (triple : Bool) (w : Word) : Prop where
  sound : w.Sound
  free : ¬ (Window.closing triple).toList <:+: w.spelling
  ends : ∃ c ∈ w.spelling.getLast?, isWordChar c = true ∨ c = '\"'

theorem Word.clear_positional {triple : Bool} {p : Piece} (h : p.Clear triple) :
    Word.Clear triple ⟨none, p⟩ :=
  ⟨⟨by simp, h.sound⟩, h.free, h.ends⟩

theorem Word.clear_named {triple : Bool} {key : String} {p : Piece} (hkey : IsWord key)
    (h : p.Clear triple) : Word.Clear triple ⟨some key, p⟩ := by
  refine ⟨⟨?_, h.sound⟩, ?_, ?_⟩
  · intro key' hmem
    rw [← Option.mem_some_iff.mp hmem]
    exact isBare_of_isWord hkey
  · intro hsub
    have hequals : '=' ∉ (Window.closing triple).toList := by simp [Window.mem_closing_iff]
    rcases infix_of_append_cons hequals hsub with hfound | hfound
    · exact not_closing_of_isWordChar triple hkey.isWordChar_of_mem hfound
    · exact h.free hfound
  · obtain ⟨c, hc, hends⟩ := h.ends
    exact ⟨c, Word.mem_getLast?_named hc, hends⟩

theorem clear_words {triple : Bool} {e : Expression} (h : e.Plain triple) :
    ∀ w ∈ e.words, w.Clear triple := by
  intro w hw
  simp only [words, List.mem_cons, List.mem_append, List.mem_map] at hw
  rcases hw with rfl | ⟨param, hparam, rfl⟩ | ⟨entry, hentry, rfl⟩
  · exact Word.clear_positional
      (Piece.clear_bare triple h.path.ne_empty h.path.isWordChar_of_mem)
  · exact Word.clear_positional (Param.clear_of_plain (h.params param hparam)).1
  · obtain ⟨hkey, hvalue⟩ := h.hash entry hentry
    exact Word.clear_named hkey (Param.clear_of_plain hvalue).1

/-- A plain expression is read as it was written. -/
theorem readable_of_plain {triple : Bool} {e : Expression} (h : e.Plain triple) :
    e.Readable := by
  refine ⟨isBare_of_isWord h.path, ?_, ?_⟩
  · intro param hparam
    obtain ⟨hclear, hparam'⟩ := Param.clear_of_plain (h.params param hparam)
    exact ⟨hclear.sound, hparam'⟩
  · intro entry hentry
    obtain ⟨hkey, hvalue⟩ := h.hash entry hentry
    obtain ⟨hclear, hvalue'⟩ := Param.clear_of_plain hvalue
    exact ⟨isBare_of_isWord hkey, hclear.sound, hvalue'⟩

/-! ### What stands in a window -/

theorem free_spaced {triple : Bool} :
    ∀ words : List Word, (∀ w ∈ words, ¬ (Window.closing triple).toList <:+: w.spelling) →
      ¬ (Window.closing triple).toList <:+: spaced words := by
  intro words
  induction words with
  | nil =>
    intro _
    exact Window.not_closing_nil triple
  | cons w rest ih =>
    intro h hsub
    have hblank : ' ' ∉ (Window.closing triple).toList := by simp [Window.mem_closing_iff]
    have hfree := h w (by simp)
    have hrest := ih fun other hmem => h other (by simp [hmem])
    have hunfold : ∀ (v : Word) (more : List Word),
        spaced (v :: more) = ' ' :: (v.spelling ++ spaced more) := by
      intro v more
      simp [spaced]
    rw [hunfold] at hsub
    rcases @infix_of_append_cons _ [] _ _ hblank hsub with hfound | hfound
    · exact Window.not_closing_nil triple hfound
    · cases rest with
      | nil =>
        rw [show spaced [] = [] from rfl, List.append_nil] at hfound
        exact hfree hfound
      | cons v more =>
        rw [hunfold] at hfound hrest
        rcases infix_of_append_cons hblank hfound with hfound' | hfound'
        · exact hfree hfound'
        · exact hrest (hfound'.trans (List.suffix_cons ' ' _).isInfix)

/-- A row of words ends as its last word does. -/
theorem ends_of_spaced {Ending : Char → Prop} :
    ∀ words : List Word, words ≠ [] → (∀ w ∈ words, ∃ c ∈ w.spelling.getLast?, Ending c) →
      ∃ c ∈ (spaced words).getLast?, Ending c := by
  intro words
  induction words with
  | nil =>
    intro hne
    exact absurd rfl hne
  | cons w rest ih =>
    intro _ h
    have hunfold : spaced (w :: rest) = ' ' :: w.spelling ++ spaced rest := by simp [spaced]
    by_cases hrest : rest = []
    · obtain ⟨c, hc, hends⟩ := h w (by simp)
      refine ⟨c, ?_, hends⟩
      rw [hunfold, hrest, show spaced [] = [] from rfl, List.append_nil]
      exact @List.mem_getLast?_append_of_mem_getLast? _ [' '] _ _ hc
    · obtain ⟨c, hc, hends⟩ := ih hrest fun other hmem => h other (by simp [hmem])
      refine ⟨c, ?_, hends⟩
      rw [hunfold]
      exact List.mem_getLast?_append_of_mem_getLast? hc

variable {triple : Bool} {e : Expression}

/-- A plain expression begins with the letter that its path begins with. -/
theorem begins_of_plain (h : e.Plain triple) :
    ∃ c ∈ e.text.toList.head?, isAsciiLetter c = true := by
  obtain ⟨first, rest, hpath, hfirst, -⟩ := h.path
  exact ⟨first, by simp [text, hpath], hfirst⟩

theorem free_of_plain (h : e.Plain triple) :
    ¬ (Window.closing triple).toList <:+: e.text.toList := by
  intro hsub
  refine free_spaced e.words (fun w hw => (clear_words h w hw).free) ?_
  rw [spaced_words]
  exact hsub.trans (List.suffix_cons ' ' _).isInfix

/-- An expression ends as its last word does. -/
theorem ends_of_words {Ending : Char → Prop}
    (h : ∀ w ∈ e.words, ∃ c ∈ w.spelling.getLast?, Ending c) (hpath : e.path ≠ "") :
    ∃ c ∈ e.text.toList.getLast?, Ending c := by
  obtain ⟨c, hc, hends⟩ := ends_of_spaced e.words (by simp [words]) h
  have hne : e.text.toList ≠ [] := by simp [text, hpath]
  obtain ⟨first, tail, htail⟩ := List.exists_cons_of_ne_nil hne
  refine ⟨c, ?_, hends⟩
  rw [spaced_words, htail] at hc
  rw [htail]
  simpa using hc

/-- A plain expression ends in a word or a quote. -/
theorem ends_of_plain (h : e.Plain triple) :
    ∃ c ∈ e.text.toList.getLast?, isWordChar c = true ∨ c = '\"' :=
  ends_of_words (fun w hw => (clear_words h w hw).ends) h.path.ne_empty

/-- An expression is its path, and nothing or a space after it. -/
theorem exists_text_eq (e : Expression) :
    ∃ rest, e.text.toList = e.path.toList ++ rest ∧ ∀ c ∈ rest.head?, c = ' ' := by
  have hwords := spaced_words e
  rw [words, spaced, List.flatMap_cons, ← spaced] at hwords
  exact ⟨_, (List.cons.inj hwords).2.symm, head?_spaced _⟩

/-- A path without blanks is what comes before the first blank of its expression. -/
theorem takeWhile_text (h : ∀ c ∈ e.path.toList, isBlank c = false) :
    e.text.toList.takeWhile (!isBlank ·) = e.path.toList := by
  obtain ⟨rest, htext, hspace⟩ := e.exists_text_eq
  rw [htext]
  have hpath : ∀ c ∈ e.path.toList, (!isBlank c) = true := by
    intro c hc
    simp [h c hc]
  refine (takeWhile_append_of_ends hpath ?_).1
  intro c hc
  rw [hspace c hc]
  decide

theorem ofBody_of_plain (h : e.Plain triple) : ofBody e.text.toList = .ok e := by
  rw [ofBody, read_text (readable_of_plain h)]

end Expression

theorem dropWhile_of_head {drop : Char → Bool} {text : List Char}
    (h : ∀ c ∈ text.head?, drop c = false) : text.dropWhile drop = text := by
  cases text with
  | nil => rfl
  | cons c rest => simp [h c (by simp)]

/-- There is nothing to trim between characters that are not blank. -/
theorem trim_of_ends {text : List Char} (hfirst : ∀ c ∈ text.head?, isBlank c = false)
    (hlast : ∀ c ∈ text.getLast?, isBlank c = false) : trim text = text := by
  rw [trim, trimStart, dropWhile_of_head hfirst, trimEnd, dropWhile_of_head, List.reverse_reverse]
  simpa using hlast

namespace Window

/-- What a plain expression ends in is no part of a delimiter, nor a blank. -/
theorem notDelimiting {c : Char} (h : isWordChar c = true ∨ c = '\"') :
    (c ≠ '~' ∧ c ≠ '\x7d') ∧ isBlank c = false := by
  rcases h with hchar | rfl
  · exact ⟨⟨ne_of_isWordChar hchar (by decide), ne_of_isWordChar hchar (by decide)⟩,
      isBlank_of_isWordChar hchar⟩
  · decide

/-- A body that holds no delimiter and has no part of one at either end. -/
structure ClearBody (triple : Bool) (body : List Char) : Prop where
  begins : ∃ c ∈ body.head?, (c ≠ '\x7b' ∧ c ≠ '~' ∧ c ≠ '!') ∧ isBlank c = false
  ends : ∃ c ∈ body.getLast?, isWordChar c = true ∨ c = '\"'
  free : ¬ (closing triple).toList <:+: body

variable {triple : Bool} {body : List Char}

theorem plain_of_clearBody (h : ClearBody triple body) : Plain ⟨triple, false, body, false⟩ := by
  obtain ⟨c, hc, hfirst, -⟩ := h.begins
  refine ⟨⟨rfl, rfl⟩, ⟨c, hc, hfirst.2.1, fun _ => ⟨hfirst.1, hfirst.2.2⟩⟩, ?_, h.free⟩
  obtain ⟨d, hd, hlast⟩ := h.ends
  intro d' hd'
  rw [Option.mem_unique hd' hd]
  exact (notDelimiting hlast).1

theorem trim_of_clearBody (h : ClearBody triple body) : trim body = body := by
  obtain ⟨c, hc, -, hfirst⟩ := h.begins
  obtain ⟨d, hd, hlast⟩ := h.ends
  refine trim_of_ends ?_ ?_
  · intro c' hc'
    rw [Option.mem_unique hc' hc]
    exact hfirst
  · intro d' hd'
    rw [Option.mem_unique hd' hd]
    exact (notDelimiting hlast).2

/-- What a word begins with is no part of a delimiter, nor a blank. -/
theorem notOpening {c : Char} (h : isWordChar c = true) :
    (c ≠ '\x7b' ∧ c ≠ '~' ∧ c ≠ '!') ∧ isBlank c = false :=
  ⟨⟨ne_of_isWordChar h (by decide), ne_of_isWordChar h (by decide),
    ne_of_isWordChar h (by decide)⟩, isBlank_of_isWordChar h⟩

theorem clearBody_of_plain {e : Expression} (h : e.Plain triple) :
    ClearBody triple e.text.toList := by
  obtain ⟨c, hc, hletter⟩ := Expression.begins_of_plain h
  exact ⟨⟨c, hc, notOpening (isWordChar_of_isAsciiLetter hletter)⟩, Expression.ends_of_plain h,
    Expression.free_of_plain h⟩

theorem clearBody_of_isWord {name : String} (h : IsWord name) : ClearBody triple name.toList := by
  have hchars := h.isWordChar_of_mem
  have hne : name.toList ≠ [] := by simpa using h.ne_empty
  refine ⟨⟨name.toList.head hne, List.head?_eq_some_head hne, ?_⟩,
    ⟨name.toList.getLast hne, List.getLast?_eq_some_getLast hne, Or.inl ?_⟩,
    not_closing_of_isWordChar triple hchars⟩
  · exact notOpening (hchars _ (List.head_mem hne))
  · exact hchars _ (List.getLast_mem hne)

/-- A character before a clear body tells what the window says. -/
theorem clearBody_cons {c : Char} (hc : (c ≠ '\x7b' ∧ c ≠ '~' ∧ c ≠ '!') ∧ isBlank c = false)
    (hbrace : c ≠ '\x7d') (h : ClearBody triple body) : ClearBody triple (c :: body) := by
  obtain ⟨d, hd, hlast⟩ := h.ends
  refine ⟨⟨c, by simp, hc⟩, ⟨d, ?_, hlast⟩, ?_⟩
  · exact @List.mem_getLast?_append_of_mem_getLast? _ [c] _ _ hd
  · intro hsub
    have hnot : c ∉ (closing triple).toList := fun hmem => hbrace (mem_closing_iff.mp hmem)
    rcases @infix_of_append_cons _ [] _ _ hnot hsub with hempty | hfound
    · exact not_closing_nil triple hempty
    · exact h.free hfound

/-- The characters that tell what a window is, where its body begins with one. -/
def sigils : List Char :=
  ['!', '#', '^', '/', '>', '&']

/-- A body that begins with none of the characters that tell what a window is says an expression,
unless it is an `else`. -/
theorem plainEvents_of_head {body : List Char} (h : ∀ c ∈ body.head?, c ∉ sigils) :
    plainEvents body =
      if body = "else".toList then .ok [.otherwise]
      else if startsWith "else " body then .error .chainedElse
      else Event.ofBody true body := by
  unfold plainEvents
  split
  iterate 6
    · exact absurd (h _ rfl) (by decide)
  · rfl

/-- What begins with an `else` and something after it has it as its first word. -/
theorem takeWhile_of_startsWith_else {body : List Char} (h : startsWith "else " body = true) :
    body.takeWhile (!isBlank ·) = "else".toList := by
  rw [← drop_of_startsWith h]
  rfl

/-- Any other is an expression, if its first word is not the one that goes on to the other part of
a block. -/
theorem plainEvents_of_word {body : List Char} (hhead : ∀ c ∈ body.head?, c ∉ sigils)
    (helse : body.takeWhile (!isBlank ·) ≠ "else".toList) :
    plainEvents body = Event.ofBody true body := by
  have hword : body ≠ "else".toList := by
    rintro rfl
    exact helse (by decide)
  have hchained : startsWith "else " body ≠ true := fun hstarts =>
    helse (takeWhile_of_startsWith_else hstarts)
  rw [plainEvents_of_head hhead, if_neg hword, if_neg hchained]

/-- A letter is none of the characters that tell what a window is. -/
theorem not_sigil_of_isAsciiLetter {c : Char} (hc : isAsciiLetter c = true) :
    c ∉ sigils := by
  intro hmark
  have hletter := (List.all_eq_true (l := sigils) (p := (!isAsciiLetter ·))).mp
    (by decide) c hmark
  simp [hc] at hletter

end Window

namespace Mustache

/-- The window that an expression in place is written as. -/
def window (m : Mustache) : Window :=
  ⟨!m.escaped, false, m.expression.text.toList, false⟩

theorem spelling_window (m : Mustache) : m.window.spelling = m.text.toList := by
  cases hescaped : m.escaped <;>
    simp [window, Window.spelling, Window.opening, Window.closing, Window.tilde, text, hescaped,
      inBraces, inTriple]

end Mustache

namespace Event

/-- An expression in place is legible if its window is plain, if it reads as it is written, and, in
two braces, if it does not look like another directive. -/
theorem legible_of_window {m : Mustache} (hw : m.window.Plain)
    (htrim : trim m.expression.text.toList = m.expression.text.toList)
    (hread : Expression.ofBody m.expression.text.toList = .ok m.expression)
    (hhead : m.escaped = true → ∀ c ∈ m.expression.text.toList.head?, c ∉ Window.sigils)
    (helse : m.escaped = true →
      m.expression.text.toList.takeWhile (!isBlank ·) ≠ "else".toList) :
    Legible (.mustache m) := by
  refine @Legible.window _ m.window rfl hw m.spelling_window ?_
  obtain ⟨e, escaped⟩ := m
  have hbody : ofBody escaped e.text.toList = .ok [.mustache ⟨e, escaped⟩] := by
    simp only [ofBody, hread]
    rfl
  cases escaped with
  | false => simpa [Window.events, Mustache.window, htrim] using hbody
  | true =>
    simp only [Window.events, Mustache.window, htrim, Bool.not_true, Bool.false_eq_true, if_false]
    rw [Window.plainEvents_of_word (hhead rfl) (helse rfl), hbody]

/-- **An expression in place is legible**, if it is plain. -/
theorem legible_mustache {m : Mustache} (h : m.Plain) : Legible (.mustache m) := by
  have hclear := Window.clearBody_of_plain h
  refine legible_of_window (Window.plain_of_clearBody hclear) (Window.trim_of_clearBody hclear)
    (Expression.ofBody_of_plain h) (fun _ c hc => ?_) (fun _ heq => ?_)
  · obtain ⟨first, hfirst, hletter⟩ := Expression.begins_of_plain h
    rw [Option.mem_unique hc hfirst]
    exact Window.not_sigil_of_isAsciiLetter hletter
  · rw [Expression.takeWhile_text fun c hc =>
      isBlank_of_isWordChar (h.path.isWordChar_of_mem c hc)] at heq
    exact h.notElse (String.toList_inj.mp heq)

/-- The opening of a block is legible, if its expression is plain. -/
theorem legible_opening {e : Expression} (h : e.Plain false) : Legible (.opening e) := by
  have hclear : Window.ClearBody false ('#' :: e.text.toList) :=
    Window.clearBody_cons (by decide) (by decide) (Window.clearBody_of_plain h)
  refine @Legible.window _ ⟨false, false, '#' :: e.text.toList, false⟩ rfl
    (Window.plain_of_clearBody hclear) ?_ ?_
  · simp [Window.spelling, Window.opening, Window.closing, Window.tilde, spelling, blockOpening,
      inBraces]
  · simp [Window.events, Window.trim_of_clearBody hclear, Window.plainEvents,
      Expression.ofBody_of_plain h, bind, Except.bind]

theorem legible_otherwise : Legible .otherwise := by
  have hclear : Window.ClearBody false "else".toList :=
    ⟨⟨'e', by decide, by decide⟩, ⟨'e', by decide, by decide⟩, by decide⟩
  refine @Legible.window _ ⟨false, false, "else".toList, false⟩ rfl
    (Window.plain_of_clearBody hclear) ?_ ?_
  · simp [Window.spelling, Window.opening, Window.closing, Window.tilde, spelling, elseDirective,
      inBraces]
  · simp only [Window.events, Window.trim_of_clearBody hclear]
    rfl

/-- The closing of a block is legible, if its name is a word. -/
theorem legible_closing {name : String} (h : IsWord name) : Legible (.closing name) := by
  have hname : Window.ClearBody false name.toList := Window.clearBody_of_isWord h
  have hclear : Window.ClearBody false ('/' :: name.toList) :=
    Window.clearBody_cons (by decide) (by decide) hname
  refine @Legible.window _ ⟨false, false, '/' :: name.toList, false⟩ rfl
    (Window.plain_of_clearBody hclear) ?_ ?_
  · simp [Window.spelling, Window.opening, Window.closing, Window.tilde, spelling, blockClosing,
      inBraces]
  · simp [Window.events, Window.trim_of_clearBody hclear, Window.plainEvents,
      Window.trim_of_clearBody hname]

end Event

end TemplateTree
