/-
What stands between delimiters.

A window ends at the first place where it may, so what it holds is no place where it might have
ended before: not a delimiter, nor a brace just before one.  A tilde at either end would have been
set apart, and so would a third brace at the beginning.  Long comments are the exception, since they
are looked through for something else.
-/
import TemplateTree.Proofs.Recut

namespace TemplateTree

/-- A trimmed text begins with no blank. -/
theorem trimStart_trim (text : List Char) : trimStart (trim text) = trim text := by
  refine dropWhile_of_head fun c hc => ?_
  obtain ⟨tail, htail⟩ := List.head?_eq_some_iff.mp hc
  obtain ⟨rest, hrest⟩ := trimEnd_isPrefixOf (trimStart text)
  have hstart : trimStart text = c :: (tail ++ rest) := by
    rw [← hrest, show trimEnd (trimStart text) = c :: tail from htail, List.cons_append]
  exact trimStart_head_not_blank hstart

/-- A text begins with the same character when it is trimmed, if that is no blank. -/
theorem mem_head?_trim {text : List Char} {c : Char} (hc : c ∈ text.head?)
    (hblank : isBlank c = false) : c ∈ (trim text).head? := by
  have hstart : trimStart text = text := dropWhile_of_head fun d hd => by
    rwa [Option.mem_unique hd hc]
  rw [trim, hstart]
  obtain ⟨tail, rfl⟩ := List.head?_eq_some_iff.mp hc
  obtain ⟨rest, hrest⟩ := trimEnd_isPrefixOf (c :: tail)
  cases htrim : trimEnd (c :: tail) with
  | nil =>
    have hall := List.dropWhile_eq_nil_iff.mp (List.reverse_eq_nil_iff.mp htrim) c (by simp)
    simp [hblank] at hall
  | cons d more =>
    rw [htrim] at hrest
    rw [(List.cons.inj hrest).1]
    rfl

theorem isInfix_trim (text : List Char) : trim text <:+: text :=
  (trimEnd_isPrefixOf _).isInfix.trans (trimStart_suffix text).isInfix

namespace Window

variable {w : Window}

theorem closing_ne_nil (triple : Bool) : (closing triple).toList ≠ [] := by
  cases triple <;> simp [closing, closeBraces, closeTriple]

/-- A window that is no comment ends where its delimiter is found, and with a tilde there if it has
one. -/
theorem splitWhere_of_reads (h : w.Reads) (hcomment : w.triple = false → '!' ∉ w.body.head?) :
    splitWhere (startsWith (closing w.triple)) (w.inner ++ (closing w.triple).toList) =
        some (w.inner, (closing w.triple).toList) ∧
      ofInner w.triple w.trimLeft w.inner = w := by
  obtain ⟨rest, -, hread⟩ := read?_eq_some_iff.mp (h [])
  obtain ⟨-, hrest⟩ := inner_append_of_readInner hread
  rw [List.append_nil] at hrest
  unfold readInner at hread
  obtain ⟨⟨inner, left⟩, hfound, heq⟩ := Option.map_eq_some_iff.mp hread
  obtain ⟨hw, rfl⟩ := Prod.mk.inj heq
  have hinner : w.inner = inner := by
    rw [← hw, inner_ofInner]
  refine ⟨?_, hinner ▸ hw⟩
  split at hfound
  · rename_i hlong
    obtain ⟨hdouble, -⟩ : w.triple = false ∧ startsWith "!--" rest = true := by simpa using hlong
    obtain ⟨tail, htail, -⟩ := readComment_change hfound
    rw [← hinner, Window.inner] at htail
    refine absurd ?_ (hcomment hdouble)
    cases hbody : w.body with
    | nil => cases hright : w.trimRight <;> simp [hbody, hright, tilde] at htail
    | cons c more =>
      rw [hbody, List.cons_append] at htail
      rw [(List.cons.inj htail).1]
      rfl
  · unfold readPlain at hfound
    obtain ⟨⟨before, found⟩, hsplit, heq'⟩ := Option.map_eq_some_iff.mp hfound
    obtain ⟨rfl, hleft⟩ := Prod.mk.inj heq'
    have hclosing := drop_of_startsWith (splitWhere_found hsplit)
    rw [hleft, List.append_nil] at hclosing
    rw [hrest, hinner, hsplit, ← hclosing]

/-- **A window that is no comment does not hold the delimiter that closes it.** -/
theorem not_closing_body (h : w.Reads) (hcomment : w.triple = false → '!' ∉ w.body.head?) :
    ¬ (closing w.triple).toList <:+: w.body := by
  intro hsub
  have hinner : (closing w.triple).toList <:+: w.inner :=
    hsub.trans (List.prefix_append _ _).isInfix
  obtain ⟨part, hpre, hpart⟩ := List.infix_iff_prefix_suffix.mp hinner
  have hne : part ≠ [] := by
    rintro rfl
    exact closing_ne_nil _ (List.prefix_nil.mp hpre)
  have hnot := not_found_of_splitWhere (splitWhere_of_reads h hcomment).1 part hne hpart
  have hfound : startsWith (closing w.triple) (part ++ (closing w.triple).toList) = true :=
    List.isPrefixOf_iff_prefix.mpr (hpre.trans (List.prefix_append _ _))
  simp [hfound] at hnot

/-- Nor does its body end in a part of a delimiter, if there is no tilde after it. -/
theorem getLast?_body (h : w.Reads) (hcomment : w.triple = false → '!' ∉ w.body.head?)
    (hright : w.trimRight = false) : ∀ c ∈ w.body.getLast?, c ≠ '~' ∧ c ≠ '\x7d' := by
  obtain ⟨hsplit, hw⟩ := splitWhere_of_reads h hcomment
  have hinner : w.inner = w.body := by simp [Window.inner, hright, tilde]
  rw [hinner] at hsplit hw
  intro c hc
  constructor
  · rintro rfl
    rw [ofInner, if_pos (Option.mem_def.mp hc)] at hw
    rw [← hw] at hright
    cases hright
  · rintro rfl
    obtain ⟨start, hstart⟩ := List.getLast?_eq_some_iff.mp hc
    have hnot := not_found_of_splitWhere hsplit ['\x7d'] (by simp) ⟨start, hstart.symm⟩
    have hfound : ∀ triple, startsWith (closing triple) (['\x7d'] ++ (closing triple).toList) =
        true := by
      decide
    rw [hfound] at hnot
    cases hnot

/-- Nor does what it holds begin with a part of a delimiter, if there is no tilde before it. -/
theorem head?_inner (h : w.Reads) (hleft : w.trimLeft = false) :
    ∀ c ∈ (w.inner ++ (closing w.triple).toList).head?,
      c ≠ '~' ∧ (w.triple = false → c ≠ '\x7b') := by
  obtain ⟨rest, ⟨-, hbrace, htilde⟩, hread⟩ := read?_eq_some_iff.mp (h [])
  obtain ⟨-, hrest⟩ := inner_append_of_readInner hread
  rw [List.append_nil] at hrest
  rw [hleft, tilde, if_neg Bool.false_ne_true, List.nil_append] at hbrace
  rw [hrest]
  intro c hc
  constructor
  · rintro rfl
    exact htilde hleft hc
  · rintro hdouble rfl
    exact hbrace hdouble hc

/-- Three braces open a window of three braces. -/
theorem triple_of_read? {text after : List Char} (h : read? ('\x7b' :: text) = some (w, after)) :
    w.triple = true := by
  obtain ⟨rest, ⟨htext, hbrace, -⟩, -⟩ := read?_eq_some_iff.mp h
  by_contra hdouble
  rw [Bool.not_eq_true] at hdouble
  rw [hdouble, brace, if_neg Bool.false_ne_true, List.nil_append] at htext
  exact hbrace hdouble (by simp [← htext])

end Window

end TemplateTree
