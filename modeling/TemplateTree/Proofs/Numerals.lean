/-
A number is read as it was written.

Written in full, a decimal is a row of digits with zeros before or after it, and a point
before, after or among them.  Reading it counts the digits and where the point is, which
gives the decimal with its zeros, and what it stands for is the same.
-/
import TemplateTree.Proofs.Decimals
import TemplateTree.Proofs.Words

namespace TemplateTree

namespace Number

/-- A finite number in the form of a double. -/
def IsFinite : Number → Prop
  | .finite _ mantissa exponent => IsDouble mantissa exponent
  | .notANumber | .infinite _ => False

/-! ### Digits -/

/-- A row of digits. -/
def AllDigits (text : List Char) : Prop :=
  ∀ c ∈ text, c.isDigit = true

variable {whole fraction digits : List Char}

theorem digitsValue_append (first second : List Char) :
    digitsValue (first ++ second) = 10 ^ second.length * digitsValue first + digitsValue second := by
  show Nat.ofDigitChars 10 (first ++ second) 0 = _
  rw [Nat.ofDigitChars_append, Nat.ofDigitChars_eq_ofDigitChars_zero]
  rfl

theorem digitsValue_zeros (count : Nat) : digitsValue (List.replicate count '0') = 0 :=
  Nat.ofDigitChars_replicate_zero

/-- Zeros before digits do not count. -/
theorem digitsValue_zeros_append (count : Nat) (digits : List Char) :
    digitsValue (List.replicate count '0' ++ digits) = digitsValue digits := by
  rw [digitsValue_append, digitsValue_zeros, Nat.mul_zero, Nat.zero_add]

theorem digitsValue_toDigits (n : Nat) : digitsValue (Nat.toDigits 10 n) = n :=
  Nat.ofDigitChars_ten_toDigits

theorem allDigits_toDigits (n : Nat) : AllDigits (Nat.toDigits 10 n) := fun _ hc =>
  Nat.isDigit_of_mem_toDigits (by decide) (by decide) hc

theorem allDigits_zeros (count : Nat) : AllDigits (List.replicate count '0') := by
  intro c hc
  rw [List.eq_of_mem_replicate hc]
  decide

theorem allDigits_append (h₁ : AllDigits whole) (h₂ : AllDigits fraction) :
    AllDigits (whole ++ fraction) := by
  intro c hc
  rcases List.mem_append.mp hc with h | h
  · exact h₁ c h
  · exact h₂ c h

/-! ### Reading digits -/

/-- Digits are read up to where they end. -/
theorem takeWhile_isDigit (h : AllDigits whole) {rest : List Char}
    (hrest : ∀ c ∈ rest.head?, c.isDigit = false) :
    (whole ++ rest).takeWhile Char.isDigit = whole ∧
      (whole ++ rest).dropWhile Char.isDigit = rest :=
  Expression.takeWhile_append_of_ends h hrest

/-- A text that shows a decimal: digits, or digits with a point after the first. -/
inductive Shows : List Char → Nat → Int → Prop
  | digits {whole : List Char} (hne : whole ≠ []) (h : AllDigits whole) :
    Shows whole (digitsValue whole) 0
  | point {whole fraction : List Char} (hne : whole ≠ []) (hwhole : AllDigits whole)
    (hfraction : AllDigits fraction) :
    Shows (whole ++ '.' :: fraction) (digitsValue (whole ++ fraction)) (-fraction.length)

namespace Shows

variable {text : List Char} {value : Nat} {power : Int}

/-- **What a text shows is what is read.** -/
theorem readDecimal_eq (h : Shows text value power) (negative : Bool) :
    readDecimal negative text = some (ofDecimal negative value power) := by
  cases h with
  | digits hne h =>
    obtain ⟨htake, hdrop⟩ := @takeWhile_isDigit text h [] (by simp)
    rw [List.append_nil] at htake hdrop
    unfold readDecimal
    simp [htake, hdrop, hne, readExponent]
  | point hne hwhole hfraction =>
    rename_i whole fraction
    obtain ⟨htake, hdrop⟩ := @takeWhile_isDigit whole hwhole ('.' :: fraction) (by simp)
    obtain ⟨htake', hdrop'⟩ := @takeWhile_isDigit fraction hfraction [] (by simp)
    rw [List.append_nil] at htake' hdrop'
    unfold readDecimal
    simp [htake, hdrop, htake', hdrop', hne, readExponent]

theorem begins (h : Shows text value power) : ∃ c rest, text = c :: rest ∧ c.isDigit = true := by
  have hfirst : ∀ {whole : List Char}, whole ≠ [] → AllDigits whole → ∀ rest,
      ∃ c tail, whole ++ rest = c :: tail ∧ c.isDigit = true := by
    intro whole hne hwhole rest
    obtain ⟨c, tail, rfl⟩ := List.exists_cons_of_ne_nil hne
    exact ⟨c, tail ++ rest, rfl, hwhole c (by simp)⟩
  cases h with
  | digits hne h => simpa using hfirst hne h []
  | point hne hwhole hfraction => exact hfirst hne hwhole _

/-- There are no other characters in it. -/
theorem chars (h : Shows text value power) : ∀ c ∈ text, c.isDigit = true ∨ c = '.' := by
  intro c hc
  cases h with
  | digits hne h => exact Or.inl (h c hc)
  | point hne hwhole hfraction =>
    rcases List.mem_append.mp hc with hc' | hc'
    · exact Or.inl (hwhole c hc')
    · rcases List.mem_cons.mp hc' with rfl | hc''
      · exact Or.inr rfl
      · exact Or.inl (hfraction c hc'')

end Shows

/-- **A decimal that is written in full is shown**, with zeros as it may be. -/
theorem shows_positionalText {style : NumberStyle} (hstyle : style.afterWhole = "")
    (hne : digits ≠ []) (h : AllDigits digits) (point : Int) :
    ∃ value power, Shows (positionalText style digits point).toList value power ∧
      (value : ℚ) * 10 ^ power = digitsValue digits * 10 ^ (point - digits.length) := by
  unfold positionalText
  split
  · -- the point stands before the digits, with zeros between
    obtain ⟨count, rfl⟩ : ∃ count : Nat, point = -count := ⟨(-point).toNat, by omega⟩
    have htext : ("0." ++ zeros (- -(count : Int)).toNat ++ String.ofList digits).toList =
        ['0'] ++ '.' :: (List.replicate count '0' ++ digits) := by
      simp [zeros]
    rw [htext]
    refine ⟨_, _, .point (by simp) (allDigits_zeros 1)
      (allDigits_append (allDigits_zeros count) h), ?_⟩
    rw [show ['0'] = List.replicate 1 '0' from rfl, digitsValue_zeros_append,
      digitsValue_zeros_append]
    congr 2
    simp only [List.length_append, List.length_replicate]
    omega
  · obtain ⟨places, rfl⟩ : ∃ places : Nat, point = places := ⟨point.toNat, by omega⟩
    rw [Int.toNat_natCast]
    split
    · -- the point stands after the digits, with zeros between
      rename_i hplaces
      obtain ⟨count, rfl⟩ : ∃ count : Nat, places = digits.length + count :=
        ⟨places - digits.length, by omega⟩
      have htext : (String.ofList digits ++ zeros (digits.length + count - digits.length) ++
          style.afterWhole).toList = digits ++ List.replicate count '0' := by
        simp [zeros, hstyle]
      rw [htext]
      refine ⟨_, _, .digits (by simp [hne]) (allDigits_append h (allDigits_zeros count)), ?_⟩
      rw [digitsValue_append, digitsValue_zeros]
      simp [mul_comm]
    · -- the point stands among the digits
      have htext : (String.ofList (digits.take places) ++ "." ++
          String.ofList (digits.drop places)).toList =
          digits.take places ++ '.' :: digits.drop places := by
        simp
      have hwhole : digits.take places ≠ [] := by
        simp [hne]
        omega
      rw [htext]
      refine ⟨_, _, .point hwhole (fun c hc => h c (List.mem_of_mem_take hc))
        (fun c hc => h c (List.mem_of_mem_drop hc)), ?_⟩
      rw [List.take_append_drop, List.length_drop]
      congr 2
      omega

/-! ### Reading a number -/

theorem toLower_of_isDigit {c : Char} (h : c.isDigit = true) : c.toLower = c := by
  simp only [Char.isDigit, Bool.and_eq_true, decide_eq_true_eq] at h
  simp only [Char.toLower]
  grind

/-- A text that begins with a digit is a decimal, and so it is after a minus. -/
theorem read?_of_digit {text : String} {c : Char} {rest : List Char} (htext : text.toList = c :: rest)
    (hc : c.isDigit = true) (negative : Bool) :
    read? ((if negative then "-" else "") ++ text) = readDecimal negative text.toList := by
  have hne : ∀ d : Char, d.isDigit = false → c ≠ d := fun d hd =>
    ne_of_apply_ne Char.isDigit (by simp [hc, hd])
  have hsign : readSign ((if negative then "-" else "") ++ text).toList = (negative, c :: rest) := by
    cases negative with
    | true => simp [readSign, htext]
    | false =>
      simp only [Bool.false_eq_true, if_false, String.empty_append, htext]
      unfold readSign
      split
      · rename_i heq
        exact absurd (List.cons.inj heq).1 (hne '-' (by decide))
      · rename_i heq
        exact absurd (List.cons.inj heq).1 (hne '+' (by decide))
      · rfl
  have hlower : c.toLower = c := toLower_of_isDigit hc
  have hname : ∀ (name : String) (d : Char), name.toList.head? = some d → d.isDigit = false →
      (c :: rest).map Char.toLower ≠ name.toList := by
    intro name d hhead hd heq
    rw [← heq, List.map_cons, hlower] at hhead
    exact hne d hd (Option.some.inj hhead)
  unfold read?
  simp only [hsign]
  rw [if_neg, if_neg, htext]
  · exact hname "nan" 'n' rfl (by decide)
  · rintro (h | h)
    · exact hname "inf" 'i' rfl (by decide) h
    · exact hname "infinity" 'i' rfl (by decide) h

/-- The sign of a number and the decimal after it. -/
theorem text_finite {style : NumberStyle} (hpositional : style.positional = none)
    (hwhole : style.afterWhole = "") (negative : Bool) (mantissa : Nat) (exponent : Int) :
    ∃ digits : String, text style (.finite negative mantissa exponent) =
        (if negative then "-" else "") ++ digits ∧
      ∃ value power, Shows digits.toList value power ∧
        (value : ℚ) * 10 ^ power = (shortest style.tie mantissa exponent).value := by
  refine ⟨_, rfl, ?_⟩
  unfold decimalText
  simp only [hpositional]
  obtain ⟨value, power, hshows, heq⟩ := shows_positionalText hwhole Nat.toDigits_ne_nil
    (allDigits_toDigits (shortest style.tie mantissa exponent).digits)
    ((Nat.toDigits 10 (shortest style.tie mantissa exponent).digits).length +
      (shortest style.tie mantissa exponent).power)
  refine ⟨value, power, hshows, ?_⟩
  rw [heq, digitsValue_toDigits, add_sub_cancel_left]
  rfl

/-- **A double is read as it was written**, in every style without powers of ten. -/
theorem read?_text {style : NumberStyle} (hpositional : style.positional = none)
    (hwhole : style.afterWhole = "") {value : Number} (h : value.IsFinite) :
    read? (value.text style) = some value := by
  cases value with
  | notANumber | infinite negative => cases h
  | finite negative mantissa exponent =>
    obtain ⟨digits, htext, value, power, hshows, heq⟩ :=
      text_finite hpositional hwhole negative mantissa exponent
    obtain ⟨c, rest, hdigits, hc⟩ := hshows.begins
    rw [htext, read?_of_digit hdigits hc, hshows.readDecimal_eq]
    congr 1
    by_cases hm : mantissa = 0
    · have hexponent : exponent = leastExponent := h.normal.resolve_left (by omega)
      have hvalue : value = 0 := by
        have hpower : (10 : ℚ) ^ power ≠ 0 := by positivity
        rw [hm, shortest, if_pos rfl, Decimal.value, Nat.cast_zero, zero_mul] at heq
        exact_mod_cast (mul_eq_zero.mp heq).resolve_right hpower
      rw [hvalue, hm, hexponent, ofDecimal, if_pos (Or.inl rfl)]
      rfl
    · have hm' : 0 < mantissa := Nat.pos_of_ne_zero hm
      refine ofDecimal_of_around h hm' ?_ negative
      rw [heq]
      exact around_shortest style.tie hm'

end Number

end TemplateTree
