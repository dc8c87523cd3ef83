/-
An expression reads as it was written.

A written expression is a row of words with a blank before each but the first, and a word
shows where it ends: a bare one at the blank, a quoted one at its quote.  So words are
read back one by one, whatever follows, as long as nothing or a blank does.  Then the
words are sorted into the path and the parameters that they were made from.

Quotes inside a string are the one place where this can fail.  They are written behind a
backslash, and backslashes are not marked themselves, so a backslash must not stand where
it would be taken for such a mark.
-/
import Mathlib
import TemplateTree.Expression.Read

namespace TemplateTree

/-! ### Strings -/

/-- A text none of whose backslashes would be taken for a mark: each stands before a
character that is neither a backslash nor a double quote. -/
def Unmarked : List Char → Prop
  | [] => True
  | c :: rest =>
    (c = '\\' → ∃ next ∈ rest.head?, next ≠ '\\' ∧ next ≠ '\"') ∧ Unmarked rest

/-- No backslash is taken for a mark where there is none. -/
theorem unmarked_of_not_mem : ∀ {value : List Char}, '\\' ∉ value → Unmarked value
  | [], _ => trivial
  | c :: rest, h => by
    obtain ⟨hc, hrest⟩ : '\\' ≠ c ∧ '\\' ∉ rest := by simpa using h
    exact ⟨fun heq => absurd heq.symm hc, unmarked_of_not_mem hrest⟩

/-- The characters of a string as they are written. -/
def marked (value : List Char) : List Char :=
  value.flatMap fun c => if c = '\"' then ['\\', '\"'] else [c]

theorem toList_markQuotes (content : String) :
    (markQuotes content).toList = marked content.toList := by
  unfold markQuotes marked
  rw [String.toList_join, List.flatMap_map]
  congr 1
  funext c
  split
  · rfl
  · simp [Char.toString]

theorem marked_cons {c : Char} (h : c ≠ '\"') (rest : List Char) :
    marked (c :: rest) = c :: marked rest := by
  simp [marked, h]

/-- A string without double quotes is written as it is. -/
theorem marked_of_not_mem :
    ∀ (value : List Char), '\"' ∉ value → marked value = value := by
  intro value
  induction value with
  | nil => intro _; rfl
  | cons c rest ih =>
    intro h
    have hc : c ≠ '\"' := fun heq => h (by simp [heq])
    rw [marked_cons hc, ih fun hmem => h (by simp [hmem])]

namespace Expression

/-- A string goes on after a character that is neither its quote nor a backslash. -/
theorem readQuoted_cons {quote c : Char} (hquote : c ≠ quote) (hslash : c ≠ '\\')
    {text value rest : List Char} (h : readQuoted quote text = .ok (value, rest)) :
    readQuoted quote (c :: text) = .ok (c :: value, rest) := by
  rw [readQuoted]
  · simp [hquote, hslash, h, bind, Except.bind]
  · intro next tail heq
    exact absurd heq hslash

/-- **A string reads as it was written.** -/
theorem readQuoted_marked (value rest : List Char) (h : Unmarked value) :
    readQuoted '\"' (marked value ++ '\"' :: rest) = .ok (value, rest) := by
  match value, h with
  | [], _ => rfl
  | c :: tail, h =>
    obtain ⟨hslash, htail⟩ := h
    by_cases hquote : c = '\"'
    · have ih := readQuoted_marked tail rest htail
      simp only [marked, List.flatMap_cons, hquote, if_true] at ih ⊢
      simp only [List.cons_append, List.nil_append, readQuoted, ih]
      simp [bind, Except.bind]
    · rw [marked_cons hquote]
      by_cases hc : c = '\\'
      · -- the character after a backslash is read together with it
        obtain ⟨next, hnext, hnextSlash, hnextQuote⟩ := hslash hc
        obtain ⟨tail', htail'⟩ := List.head?_eq_some_iff.mp hnext
        have hrest : Unmarked tail' := by
          rw [htail'] at htail
          exact htail.2
        have ih := readQuoted_marked tail' rest hrest
        rw [hc, htail', marked_cons hnextQuote]
        simp [readQuoted, ih, bind, Except.bind, hnextQuote, hnextSlash]
      · exact readQuoted_cons hquote hc (readQuoted_marked tail rest htail)
termination_by value.length
decreasing_by all_goals simp_all only [List.length_cons]; omega

/-! ### Words -/

/-- A text that is one word on its own: it is not empty, begins with no quote, and has
no blank and no equals sign. -/
structure IsBare (text : List Char) : Prop where
  begins : ∃ c ∈ text.head?, isQuote c = false
  goesOn : ∀ c ∈ text, isBareChar c = true

namespace Piece

/-- The value of a word as it is written. -/
def spelling : Piece → List Char
  | .bare content => content.toList
  | .quoted content => '\"' :: (marked content.toList ++ ['\"'])

/-- A value that reads as it is written. -/
def Sound : Piece → Prop
  | .bare content => IsBare content.toList
  | .quoted content => Unmarked content.toList

end Piece

namespace Word

/-- A word as it is written. -/
def spelling : Word → List Char
  | ⟨none, value⟩ => value.spelling
  | ⟨some key, value⟩ => key.toList ++ '=' :: value.spelling

/-- A word that reads as it is written. -/
def Sound (w : Word) : Prop :=
  (∀ key ∈ w.key, IsBare key.toList) ∧ w.value.Sound

end Word

/-- What follows a word: nothing, or a blank. -/
def Ends (rest : List Char) : Prop :=
  ∀ c ∈ rest.head?, isBlank c = true

theorem isBareChar_of_ends {rest : List Char} (h : Ends rest) :
    ∀ c ∈ rest.head?, isBareChar c = false := by
  intro c hc
  simp [isBareChar, h c hc]

/-- A row of things of one kind ends where another kind comes. -/
theorem takeWhile_append_of_ends {α : Type} {keep : α → Bool} {first rest : List α}
    (hfirst : ∀ c ∈ first, keep c = true) (hrest : ∀ c ∈ rest.head?, keep c = false) :
    (first ++ rest).takeWhile keep = first ∧ (first ++ rest).dropWhile keep = rest := by
  rw [List.takeWhile_append_of_pos hfirst, List.dropWhile_append_of_pos hfirst]
  cases rest with
  | nil => simp
  | cons c tail =>
    have hc : keep c = false := hrest c (by simp)
    simp [hc]

/-- A value without quotes: it is not empty, begins with no quote, and has no blank.  Behind an
equals sign there may be more of them. -/
structure IsBareValue (text : List Char) : Prop where
  begins : ∃ c ∈ text.head?, isQuote c = false
  goesOn : ∀ c ∈ text, isBlank c = false

theorem IsBare.isBareValue {text : List Char} (h : IsBare text) : IsBareValue text := by
  refine ⟨h.begins, fun c hc => ?_⟩
  have hbare := h.goesOn c hc
  simp only [isBareChar, Bool.and_eq_true, Bool.not_eq_true'] at hbare
  exact hbare.1

/-- A value without quotes reads as it is written. -/
theorem readValue_bare {content : String} (h : IsBareValue content.toList) {rest : List Char}
    (hrest : Ends rest) : readValue (content.toList ++ rest) = .ok (.bare content, rest) := by
  obtain ⟨⟨c, hc, hquote⟩, hall⟩ := h
  obtain ⟨tail, htail⟩ := List.head?_eq_some_iff.mp hc
  have hblank : ∀ d ∈ content.toList, (!isBlank d) = true := by
    intro d hd
    simp [hall d hd]
  have hend : ∀ d ∈ rest.head?, (!isBlank d) = false := by
    intro d hd
    simp [hrest d hd]
  obtain ⟨htake, hdrop⟩ := takeWhile_append_of_ends hblank hend
  have hc' : isBlank c = false := hall c (by simp [htail])
  have hread : readValue (c :: (tail ++ rest)) =
      .ok (.bare (String.ofList ((c :: (tail ++ rest)).takeWhile (!isBlank ·))),
        (c :: (tail ++ rest)).dropWhile (!isBlank ·)) := by
    simp [readValue, hquote, hc']
  rw [htail, List.cons_append, hread, ← List.cons_append, ← htail, htake, hdrop,
    String.ofList_toList]

/-- A value in quotes reads as it is written. -/
theorem readValue_quoted {content : String} (h : Unmarked content.toList) (rest : List Char) :
    readValue ((Piece.quoted content).spelling ++ rest) = .ok (.quoted content, rest) := by
  have hread := readQuoted_marked content.toList rest h
  simp [Piece.spelling, readValue, isQuote, hread, bind, Except.bind]

/-- The value of a named parameter reads as it is written. -/
theorem readValue_spelling {value : Piece} (h : value.Sound) {rest : List Char}
    (hrest : Ends rest) : readValue (value.spelling ++ rest) = .ok (value, rest) := by
  cases value with
  | quoted content => exact readValue_quoted h rest
  | bare content => exact readValue_bare (IsBare.isBareValue h) hrest

/-- A bare beginning is read up to where it ends; what is there decides what it is. -/
theorem readWord_bare {c : Char} {tail : List Char} (h : IsBare (c :: tail)) (after : List Char) :
    (∀ d ∈ after.head?, isBareChar d = false) → readWord c (tail ++ after) =
      match after with
      | '=' :: rest => do
        let (value, rest) ← readValue rest
        .ok (⟨some (String.ofList (c :: tail)), value⟩, rest)
      | rest => .ok (⟨none, .bare (String.ofList (c :: tail))⟩, rest) := by
  intro hafter
  obtain ⟨⟨d, hd, hquote⟩, hall⟩ := h
  have hc : isQuote c = false := by
    rw [show c = d by simpa using hd]
    exact hquote
  have hequals : c ≠ '=' := by
    have hbare := hall c (by simp)
    simp only [isBareChar, Bool.and_eq_true, bne_iff_ne] at hbare
    exact hbare.2
  have htail : ∀ e ∈ tail, isBareChar e = true := fun e he => hall e (by simp [he])
  obtain ⟨htake, hdrop⟩ := takeWhile_append_of_ends htail hafter
  have hread := readWord.eq_def c (tail ++ after)
  simp only [hc, hequals, htake, hdrop, Bool.false_eq_true, if_false] at hread
  exact hread

/-- A key reads as it stands; what is behind its equals sign is read as a value. -/
theorem readWord_key {key : String} (h : IsBare key.toList) {c : Char} {tail rest : List Char}
    (htext : key.toList ++ '=' :: rest = c :: tail) :
    readWord c tail = (readValue rest).map fun read => (⟨some key, read.1⟩, read.2) := by
  obtain ⟨d, hd, -⟩ := h.begins
  obtain ⟨key', hkey'⟩ := List.head?_eq_some_iff.mp hd
  simp only [hkey', List.cons_append, List.cons.injEq] at htext
  obtain ⟨rfl, rfl⟩ := htext
  rw [readWord_bare (hkey' ▸ h) _ (by simp [isBareChar]), ← hkey', String.ofList_toList]
  cases hread : readValue rest <;> simp [hread, bind, Except.bind, Except.map]

/-- So it does before a value that is written out. -/
theorem readWord_named {key : String} (h : IsBare key.toList) {value : Piece} {c : Char}
    {tail rest : List Char} (hspelling : Word.spelling ⟨some key, value⟩ ++ rest = c :: tail) :
    readWord c tail =
      (readValue (value.spelling ++ rest)).map fun read => (⟨some key, read.1⟩, read.2) :=
  readWord_key h (by rw [← hspelling, Word.spelling, List.append_assoc, List.cons_append])

/-- **A word reads as it is written**, whatever comes after its end. -/
theorem readWord_spelling {w : Word} (h : w.Sound) {c : Char} {tail rest : List Char}
    (hspelling : w.spelling ++ rest = c :: tail) (hrest : Ends rest) :
    readWord c tail = .ok (w, rest) := by
  obtain ⟨key, value⟩ := w
  obtain ⟨hkey, hvalue⟩ := h
  match key, value with
  | none, .quoted content =>
    have hread := readQuoted_marked content.toList rest hvalue
    simp only [Word.spelling, Piece.spelling, List.cons_append, List.append_assoc,
      List.nil_append, List.cons.injEq] at hspelling
    obtain ⟨rfl, rfl⟩ := hspelling
    simp [readWord, isQuote, hread, bind, Except.bind]
  | none, .bare content =>
    obtain ⟨d, hd, -⟩ := hvalue.begins
    obtain ⟨content', hcontent⟩ := List.head?_eq_some_iff.mp hd
    simp only [Word.spelling, Piece.spelling, hcontent, List.cons_append,
      List.cons.injEq] at hspelling
    obtain ⟨rfl, rfl⟩ := hspelling
    have hsound : IsBare (d :: content') := hcontent ▸ hvalue
    rw [readWord_bare hsound rest (isBareChar_of_ends hrest), ← hcontent, String.ofList_toList]
    split
    · -- an equals sign is no blank
      rename_i after
      have hblank := hrest '=' (by simp)
      simp [isBlank] at hblank
    · rfl
  | some key, value =>
    rw [readWord_named (hkey key rfl) hspelling, readValue_spelling hvalue hrest, Except.map]

/-- A bare word begins with no blank. -/
theorem IsBare.begins_not_blank {text : List Char} (h : IsBare text) :
    ∃ c tail, text = c :: tail ∧ isBlank c = false := by
  obtain ⟨c, hc, -⟩ := h.begins
  obtain ⟨tail, htail⟩ := List.head?_eq_some_iff.mp hc
  have hbare := h.goesOn c (by simp [htail])
  simp only [isBareChar, Bool.and_eq_true, Bool.not_eq_true'] at hbare
  exact ⟨c, tail, htail, hbare.1⟩

/-- A word begins with no blank. -/
theorem spelling_begins {w : Word} (h : w.Sound) :
    ∃ c tail, w.spelling = c :: tail ∧ isBlank c = false := by
  obtain ⟨key, value⟩ := w
  match key, value with
  | none, .quoted content => exact ⟨'\"', _, rfl, by decide⟩
  | none, .bare content => exact h.2.begins_not_blank
  | some key, value =>
    obtain ⟨c, tail, htail, hc⟩ := (h.1 key rfl).begins_not_blank
    exact ⟨c, tail ++ '=' :: value.spelling, by simp [Word.spelling, htail], hc⟩

/-! ### Rows of words -/

/-- Words with a blank before each. -/
def spaced (words : List Word) : List Char :=
  words.flatMap fun w => ' ' :: w.spelling

/-- A row of words begins with a space. -/
theorem head?_spaced (words : List Word) : ∀ c ∈ (spaced words).head?, c = ' ' := by
  intro c hc
  cases words with
  | nil => simp [spaced] at hc
  | cons w rest => simpa [spaced, eq_comm] using hc

theorem ends_spaced (words : List Word) : Ends (spaced words) := by
  intro c hc
  rw [head?_spaced words c hc]
  rfl

/-- The words of a text, one at a time. -/
theorem readWords_eq (text : List Char) :
    readWords text =
      match trimStart text with
      | [] => .ok []
      | c :: rest =>
        match readWord c rest with
        | .error fault => .error fault
        | .ok (word, rest) =>
          match readWords rest with
          | .error fault => .error fault
          | .ok words => .ok (word :: words) := by
  rw [readWords]
  split
  · rename_i htrim
    rw [htrim]
  · rename_i c rest htrim
    rw [htrim]
    simp only
    split
    · rename_i fault hword
      rw [hword]
    · rename_i word after hword
      exact hword ▸ rfl

/-- Blanks before a text make no difference to its words. -/
theorem readWords_cons_of_blank {c : Char} (h : isBlank c = true) (text : List Char) :
    readWords (c :: text) = readWords text := by
  have htrim : trimStart (c :: text) = trimStart text := by simp [trimStart, h]
  rw [readWords_eq, readWords_eq text, htrim]

/-- The first of a row of words is read first. -/
theorem readWords_spaced_cons {w : Word} {c : Char} {tail : List Char}
    (hspelling : w.spelling = c :: tail) (hblank : isBlank c = false) (rest : List Word) :
    readWords (spaced (w :: rest)) =
      match readWord c (tail ++ spaced rest) with
      | .error fault => .error fault
      | .ok (word, after) =>
        match readWords after with
        | .error fault => .error fault
        | .ok words => .ok (word :: words) := by
  have htrim : trimStart (c :: (tail ++ spaced rest)) = c :: (tail ++ spaced rest) := by
    simp [trimStart, hblank]
  have hunfold : spaced (w :: rest) = ' ' :: c :: (tail ++ spaced rest) := by
    simp [spaced, hspelling]
  rw [hunfold, readWords_cons_of_blank (by decide), readWords_eq, htrim]

/-- **Words read as they are written.** -/
theorem readWords_spaced :
    ∀ (words : List Word), (∀ w ∈ words, w.Sound) → readWords (spaced words) = .ok words := by
  intro words
  induction words with
  | nil =>
    intro _
    rw [readWords]
    rfl
  | cons w rest ih =>
    intro hsound
    have hw := hsound w (by simp)
    have hrest := ih fun other hmem => hsound other (by simp [hmem])
    obtain ⟨c, tail, hspelling, hblank⟩ := spelling_begins hw
    have hread : readWord c (tail ++ spaced rest) = .ok (w, spaced rest) :=
      readWord_spelling hw (by rw [hspelling, List.cons_append]) (ends_spaced rest)
    rw [readWords_spaced_cons hspelling hblank, hread]
    simp only [hrest]

/-! ### Expressions -/

end Expression

/-- The value of the word that a parameter is written as. -/
def Param.piece : Param → Expression.Piece
  | .path name => .bare name
  | .string value => .quoted value
  | .number value => .bare (value.text Expression.numberStyle)
  | .boolean value => .bare (if value then "true" else "false")

/-- A parameter that is read as it is written: its word shows where it ends, and stands
for the parameter. -/
def Param.Readable (param : Param) : Prop :=
  param.piece.Sound ∧ param.piece.toParam = param

theorem Param.toList_text (param : Param) : param.text.toList = param.piece.spelling := by
  cases param with
  | path name => rfl
  | string value => simp [Param.text, Param.piece, Expression.Piece.spelling, toList_markQuotes]
  | number value => rfl
  | boolean value => rfl

namespace Expression

/-- The words of an expression. -/
def words (e : Expression) : List Word :=
  ⟨none, .bare e.path⟩ :: (e.params.map (⟨none, Param.piece ·⟩) ++
    e.hash.map fun (key, value) => ⟨some key, value.piece⟩)

/-- An expression that is read as it is written. -/
structure Readable (e : Expression) : Prop where
  path : IsBare e.path.toList
  params : ∀ param ∈ e.params, param.Readable
  hash : ∀ entry ∈ e.hash, IsBare entry.1.toList ∧ entry.2.Readable

theorem spaced_words (e : Expression) : spaced e.words = ' ' :: e.text.toList := by
  have hparams : ∀ params : List Param,
      (String.join (params.map fun param => " " ++ param.text)).toList =
        spaced (params.map (⟨none, Param.piece ·⟩)) := by
    intro params
    simp only [String.toList_join, spaced, List.flatMap_map]
    congr 1
    funext param
    simp [Word.spelling, Param.toList_text]
  have hhash : ∀ hash : List (String × Param),
      (String.join (hash.map fun (key, value) => " " ++ key ++ "=" ++ value.text)).toList =
        spaced (hash.map fun (key, value) => ⟨some key, value.piece⟩) := by
    intro hash
    simp only [String.toList_join, spaced, List.flatMap_map]
    congr 1
    funext entry
    simp [Word.spelling, Param.toList_text]
  have happend : ∀ first second : List Word,
      spaced (first ++ second) = spaced first ++ spaced second := by
    intro first second
    simp [spaced]
  simp only [text, String.toList_append, hparams, hhash]
  rw [words, spaced, List.flatMap_cons, ← spaced, happend]
  simp [Word.spelling, Piece.spelling]

/-- Words that stand for the parameters they were made from are those parameters. -/
theorem arguments_hash (named : Bool) :
    ∀ hash : List (String × Param), (∀ entry ∈ hash, entry.2.piece.toParam = entry.2) →
      arguments named (hash.map fun (key, value) => ⟨some key, value.piece⟩) = .ok ([], hash) := by
  intro hash
  induction hash generalizing named with
  | nil => intro _; rfl
  | cons entry rest ih =>
    intro h
    have hrest := ih true fun other hmem => h other (by simp [hmem])
    have hentry := h entry (by simp)
    simp [arguments, hrest, hentry, bind, Except.bind]

theorem arguments_words :
    ∀ params : List Param, (∀ param ∈ params, param.piece.toParam = param) →
      ∀ hash : List (String × Param), (∀ entry ∈ hash, entry.2.piece.toParam = entry.2) →
        arguments false (params.map (⟨none, Param.piece ·⟩) ++
          hash.map fun (key, value) => ⟨some key, value.piece⟩) = .ok (params, hash) := by
  intro params
  induction params with
  | nil =>
    intro _ hash hhash
    exact arguments_hash false hash hhash
  | cons param rest ih =>
    intro h hash hhash
    have hrest := ih (fun other hmem => h other (by simp [hmem])) hash hhash
    have hparam := h param (by simp)
    simp [arguments, hrest, hparam, bind, Except.bind]

/-- The words of an expression stand for it if each stands for its parameter. -/
theorem ofWords_words {e : Expression} (hparams : ∀ param ∈ e.params, param.piece.toParam = param)
    (hhash : ∀ entry ∈ e.hash, entry.2.piece.toParam = entry.2) : ofWords e.words = .ok e := by
  simp [words, ofWords, arguments_words e.params hparams e.hash hhash, bind, Except.bind]

/-- **An expression reads as it was written.** -/
theorem read_text {e : Expression} (h : e.Readable) : read e.text.toList = .ok e := by
  have hsound : ∀ w ∈ e.words, w.Sound := by
    intro w hw
    simp only [words, List.mem_cons, List.mem_append, List.mem_map] at hw
    rcases hw with rfl | ⟨param, hparam, rfl⟩ | ⟨entry, hentry, rfl⟩
    · exact ⟨by simp, h.path⟩
    · exact ⟨by simp, (h.params param hparam).1⟩
    · refine ⟨?_, (h.hash entry hentry).2.1⟩
      intro key hkey
      rw [← Option.mem_some_iff.mp hkey]
      exact (h.hash entry hentry).1
  have hwords : readWords e.text.toList = .ok e.words := by
    rw [← readWords_cons_of_blank (c := ' ') (by decide), ← spaced_words]
    exact readWords_spaced e.words hsound
  have hsame := ofWords_words (fun param hmem => (h.params param hmem).2) fun entry hmem =>
    (h.hash entry hmem).2.2
  simp [read, hwords, bind, Except.bind, hsame]

end Expression

end TemplateTree
