/-
Reading an expression.

The text between the delimiters is a row of words, set apart by blanks.  A word is
quoted, or bare, or a key with a value that is quoted or bare.  A quoted word ends
at its quote, so the next word may follow it directly; a bare word ends at a blank,
and its first equals sign, if it has one, ends the key.

All words are read before any is looked at: a string that never ends is reported
even if the first word already was no path.  Then the first word must be a path,
and positional parameters come before named ones.
-/
import TemplateTree.Expression.Basic
import TemplateTree.Number.Read
import TemplateTree.Text.Blank

namespace TemplateTree

/-- Why a text is no expression. -/
inductive ExpressionFault
  | empty
  | unterminatedString
  | noPath
  | positionalAfterNamed
  | missingKey
  | missingValue
  deriving DecidableEq, Repr

namespace Expression

/-- The value of a word before it is classified. -/
inductive Piece
  | bare (text : String)
  | quoted (text : String)
  deriving DecidableEq, Repr

/-- A word, with its key if it is a named parameter. -/
structure Word where
  key : Option String
  value : Piece
  deriving DecidableEq, Repr

/-- May this character begin a string? -/
def isQuote (c : Char) : Bool :=
  c == '\"' || c == '\''

/-! ### Words -/

/-- Reads a string up to its closing quote.  A backslash is dropped before that quote
and before another backslash, and kept before anything else. -/
def readQuoted (quote : Char) : List Char → Except ExpressionFault (List Char × List Char)
  | [] => .error .unterminatedString
  | '\\' :: c :: rest => do
    let (value, rest) ← readQuoted quote rest
    if c = quote ∨ c = '\\' then .ok (c :: value, rest) else .ok ('\\' :: c :: value, rest)
  | c :: rest =>
    if c = quote then .ok ([], rest)
    else if c = '\\' then .error .unterminatedString
    else do
      let (value, rest) ← readQuoted quote rest
      .ok (c :: value, rest)

/-- Reads the value of a named parameter, which begins right after the equals sign. -/
def readValue (text : List Char) : Except ExpressionFault (Piece × List Char) :=
  match text with
  | [] => .error .missingValue
  | c :: rest =>
    if isQuote c then do
      let (value, rest) ← readQuoted c rest
      .ok (.quoted (String.ofList value), rest)
    else if isBlank c then .error .missingValue
    else
      .ok (.bare (String.ofList (text.takeWhile (!isBlank ·))), text.dropWhile (!isBlank ·))

/-- Is this character part of a bare word before any equals sign? -/
def isBareChar (c : Char) : Bool :=
  !isBlank c && c != '='

/-- Reads the word that begins with `c`, which is not blank. -/
def readWord (c : Char) (rest : List Char) : Except ExpressionFault (Word × List Char) :=
  if isQuote c then do
    let (value, rest) ← readQuoted c rest
    .ok (⟨none, .quoted (String.ofList value)⟩, rest)
  else if c = '=' then .error .missingKey
  else
    let bare := String.ofList (c :: rest.takeWhile isBareChar)
    match rest.dropWhile isBareChar with
    | '=' :: rest => do
      let (value, rest) ← readValue rest
      .ok (⟨some bare, value⟩, rest)
    | rest => .ok (⟨none, .bare bare⟩, rest)

/-! Each reader leaves less than it was given, which is why reading all words ends. -/

theorem length_readQuoted {quote : Char} {text : List Char} {value rest : List Char}
    (h : readQuoted quote text = .ok (value, rest)) : rest.length < text.length := by
  fun_induction readQuoted quote text generalizing value rest with
  | case1 => simp at h
  | case2 c tail ih =>
    cases hq : readQuoted quote tail with
    | error e => simp [hq, bind, Except.bind] at h
    | ok p =>
      obtain ⟨v, r⟩ := p
      have hlt := ih hq
      simp only [hq, bind, Except.bind] at h
      split at h <;> · cases h; simp; omega
  | case3 tail => cases h; simp
  | case4 => simp at h
  | case5 c tail _ _ _ ih =>
    cases hq : readQuoted quote tail with
    | error e => simp [hq, bind, Except.bind] at h
    | ok p =>
      obtain ⟨v, r⟩ := p
      have hlt := ih hq
      simp only [hq, bind, Except.bind] at h
      cases h
      simp
      omega

theorem length_dropWhile_le (keep : Char → Bool) (text : List Char) :
    (text.dropWhile keep).length ≤ text.length :=
  (List.dropWhile_suffix keep).length_le

theorem length_readValue {text rest : List Char} {value : Piece}
    (h : readValue text = .ok (value, rest)) : rest.length < text.length := by
  unfold readValue at h
  split at h
  · simp at h
  · rename_i c tail
    split at h
    · cases hq : readQuoted c tail with
      | error e => simp [hq, bind, Except.bind] at h
      | ok p =>
        obtain ⟨v, r⟩ := p
        have hlt := length_readQuoted hq
        simp only [hq, bind, Except.bind] at h
        cases h
        simp
        omega
    · split at h
      · simp at h
      · rename_i hb
        cases h
        have hle := length_dropWhile_le (!isBlank ·) tail
        simp only [Bool.not_eq_true] at hb
        rw [List.dropWhile_cons_of_pos (by simp [hb])]
        simp
        omega

theorem length_readWord {c : Char} {tail rest : List Char} {word : Word}
    (h : readWord c tail = .ok (word, rest)) : rest.length ≤ tail.length := by
  unfold readWord at h
  split at h
  · cases hq : readQuoted c tail with
    | error e => simp [hq, bind, Except.bind] at h
    | ok p =>
      obtain ⟨v, r⟩ := p
      have hlt := length_readQuoted hq
      simp only [hq, bind, Except.bind] at h
      cases h
      omega
  · split at h
    · simp at h
    · have hle := length_dropWhile_le isBareChar tail
      simp only at h
      split at h
      · rename_i after hafter
        rw [hafter] at hle
        cases hv : readValue after with
        | error e => simp [hv, bind, Except.bind] at h
        | ok p =>
          obtain ⟨v, r⟩ := p
          have hlt := length_readValue hv
          simp only [hv, bind, Except.bind] at h
          cases h
          simp at hle
          omega
      · cases h
        exact hle

/-- Reads all words of a text. -/
def readWords (text : List Char) : Except ExpressionFault (List Word) :=
  match _h : trimStart text with
  | [] => .ok []
  | c :: rest =>
    match _hw : readWord c rest with
    | .error fault => .error fault
    | .ok (word, rest) =>
      match readWords rest with
      | .error fault => .error fault
      | .ok words => .ok (word :: words)
termination_by text.length
decreasing_by
  have h₁ := length_trimStart_le text
  have h₂ := length_readWord _hw
  rw [_h] at h₁
  simp at h₁
  omega

/-! ### Classification -/

/-- Does a bare word begin like a number? -/
def looksNumeric (text : List Char) : Bool :=
  match text with
  | '-' :: c :: _ => c.isDigit
  | c :: _ => c.isDigit
  | [] => false

/-- What a bare word stands for.  A word that begins like a number and is none is a
path like any other. -/
def bareParam (text : String) : Param :=
  if text = "true" then .boolean true
  else if text = "false" then .boolean false
  else if looksNumeric text.toList then
    match Number.read? text with
    | some value => .number value
    | none => .path text
  else .path text

/-- The parameter a value stands for; a quoted one is always a string. -/
def Piece.toParam : Piece → Param
  | .bare text => bareParam text
  | .quoted text => .string text

/-- The parameters a row of words stands for: positional ones, then named ones.
`named` tells whether a named one came before. -/
def arguments (named : Bool) : List Word → Except ExpressionFault (List Param × List (String × Param))
  | [] => .ok ([], [])
  | ⟨some key, value⟩ :: rest => do
    let (params, hash) ← arguments true rest
    .ok (params, (key, value.toParam) :: hash)
  | ⟨none, value⟩ :: rest =>
    if named then .error .positionalAfterNamed
    else do
      let (params, hash) ← arguments false rest
      .ok (value.toParam :: params, hash)

/-- The expression a row of words stands for. -/
def ofWords : List Word → Except ExpressionFault Expression
  | [] => .error .empty
  | ⟨none, .bare path⟩ :: rest => do
    let (params, hash) ← arguments false rest
    .ok ⟨path, params, hash⟩
  | _ :: _ => .error .noPath

/-- Reads a text as an expression. -/
def read (text : List Char) : Except ExpressionFault Expression := do
  ofWords (← readWords text)

end Expression

end TemplateTree
