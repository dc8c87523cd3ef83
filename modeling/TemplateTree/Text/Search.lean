/-
Looking for the first place in a text.

Every delimiter of a directive is found the same way: go forward until what
follows has a certain form.  `splitWhere` does that search and keeps both sides;
the three lemmas below are all that anything else needs to know of it.  Nothing
is lost, the second side has the form, and no earlier place had it.
-/

namespace TemplateTree

/-- The search itself; `passed` holds the characters gone by, newest first. -/
def splitWhere.go (found : List Char → Bool) (passed : List Char) :
    List Char → Option (List Char × List Char)
  | [] => if found [] then some (passed.reverse, []) else none
  | c :: rest =>
    if found (c :: rest) then some (passed.reverse, c :: rest)
    else go found (c :: passed) rest

/-- The text before the first place where `found` holds of all that follows,
together with what follows there; nothing if there is no such place. -/
def splitWhere (found : List Char → Bool) (text : List Char) : Option (List Char × List Char) :=
  splitWhere.go found [] text

theorem splitWhere.go_eq (found : List Char → Bool) (passed text : List Char) :
    splitWhere.go found passed text =
      (splitWhere found text).map fun (before, after) => (passed.reverse ++ before, after) := by
  induction text generalizing passed with
  | nil => by_cases h : found [] <;> simp [splitWhere, splitWhere.go, h]
  | cons c rest ih =>
    by_cases h : found (c :: rest)
    · simp [splitWhere, splitWhere.go, h]
    · simp only [splitWhere, splitWhere.go, h, Bool.false_eq_true, if_false]
      rw [ih, ih [c]]
      cases splitWhere found rest <;> simp

@[simp] theorem splitWhere_nil (found : List Char → Bool) :
    splitWhere found [] = if found [] then some ([], []) else none := by
  by_cases h : found [] <;> simp [splitWhere, splitWhere.go, h]

/-- The search, one character at a time. -/
theorem splitWhere_cons (found : List Char → Bool) (c : Char) (rest : List Char) :
    splitWhere found (c :: rest) =
      if found (c :: rest) then some ([], c :: rest)
      else (splitWhere found rest).map fun (before, after) => (c :: before, after) := by
  by_cases h : found (c :: rest)
  · simp [splitWhere, splitWhere.go, h]
  · simp only [splitWhere, splitWhere.go, h, Bool.false_eq_true, if_false]
    rw [splitWhere.go_eq]
    rfl

/-- Nothing is lost. -/
theorem splitWhere_append {found : List Char → Bool} {text before after : List Char}
    (h : splitWhere found text = some (before, after)) : before ++ after = text := by
  induction text generalizing before with
  | nil =>
    by_cases hf : found [] <;> simp [hf] at h
    simp [h]
  | cons c rest ih =>
    rw [splitWhere_cons] at h
    split at h
    · cases h; rfl
    · rw [Option.map_eq_some_iff] at h
      obtain ⟨⟨b, a⟩, hb, heq⟩ := h
      cases heq
      simp [ih hb]

/-- The second side has the form that was looked for. -/
theorem splitWhere_found {found : List Char → Bool} {text before after : List Char}
    (h : splitWhere found text = some (before, after)) : found after = true := by
  induction text generalizing before with
  | nil =>
    by_cases hf : found [] <;> simp [hf] at h
    rw [h.2]; exact hf
  | cons c rest ih =>
    rw [splitWhere_cons] at h
    split at h
    · cases h; assumption
    · rw [Option.map_eq_some_iff] at h
      obtain ⟨⟨b, a⟩, hb, heq⟩ := h
      cases heq
      exact ih hb

/-- The search fails exactly when no place has the form. -/
theorem splitWhere_eq_none_iff {found : List Char → Bool} {text : List Char} :
    splitWhere found text = none ↔ ∀ after, after <:+ text → found after = false := by
  induction text with
  | nil =>
    by_cases h : found [] <;> simp [h]
  | cons c rest ih =>
    rw [splitWhere_cons]
    by_cases h : found (c :: rest)
    · simp only [h, if_true, reduceCtorEq, false_iff]
      intro hall
      simpa [h] using hall _ (List.suffix_refl _)
    · simp only [h, Bool.false_eq_true, if_false, Option.map_eq_none_iff, ih, List.suffix_cons_iff]
      constructor
      · rintro hall after (rfl | hs)
        · simpa using h
        · exact hall after hs
      · intro hall after hs
        exact hall after (Or.inr hs)

/-- Does a text begin with these characters? -/
def startsWith (opening : String) (text : List Char) : Bool :=
  opening.toList.isPrefixOf text

end TemplateTree
