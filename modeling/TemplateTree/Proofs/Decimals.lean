/-
A double is read as it was written.

The search for a shortest decimal accepts only decimals in the interval of the double,
and falls back on all of the digits, which are in it too.  So rounding what was written
gives the double again, and how the decimal is spread over its digits and zeros does not
matter: all that counts is what it stands for.
-/
import TemplateTree.Proofs.Rounding
import TemplateTree.Number.Style

namespace TemplateTree

namespace Number

variable {mantissa : Nat} {exponent : Int}

/-! ### The shortest decimal -/

namespace Decimal

/-- What a decimal stands for. -/
def value (d : Decimal) : ℚ :=
  d.digits * 10 ^ d.power

theorem value_stripped (d : Decimal) : d.stripped.value = d.value := by
  fun_induction stripped d with
  | case1 d h ih =>
    have hdigits : ((d.digits / 10 : Nat) : ℚ) * 10 = d.digits := by
      exact_mod_cast Nat.div_mul_cancel (Nat.dvd_of_mod_eq_zero h.2)
    rw [ih, value, value, zpow_add_one₀ (by norm_num), ← hdigits]
    ring
  | case2 => rfl

theorem value_exact (mantissa : Nat) (exponent : Int) :
    (exact mantissa exponent).value = mantissa * 2 ^ exponent := by
  unfold exact
  split
  · rename_i h
    obtain ⟨n, rfl⟩ := Int.eq_ofNat_of_zero_le h
    simp [value]
  · rename_i h
    obtain ⟨n, rfl⟩ : ∃ n : Nat, exponent = -n := ⟨(-exponent).toNat, by omega⟩
    have hten : (10 : ℚ) ^ n = 2 ^ n * 5 ^ n := by rw [← mul_pow]; norm_num
    simp only [value, neg_neg, Int.toNat_natCast, zpow_neg, zpow_natCast, hten, Nat.pow_eq]
    push_cast
    field_simp

end Decimal

theorem lowEnd_lt (hm : 0 < mantissa) : lowEnd mantissa exponent < 4 * mantissa := by
  unfold lowEnd
  split <;> omega

/-- A double is in its own interval. -/
theorem around_self (hm : 0 < mantissa) : Around mantissa exponent (mantissa * 2 ^ exponent) := by
  have hvalue : (mantissa * 2 ^ exponent : ℚ) = 4 * mantissa * 2 ^ (exponent - 2) := by
    have hplaces := zpow_add_places exponent 0
    norm_num at hplaces
    rw [hplaces]
    ring
  have hlow : (lowEnd mantissa exponent : ℚ) * 2 ^ (exponent - 2) <
      4 * mantissa * 2 ^ (exponent - 2) :=
    mul_lt_mul_of_pos_right (by exact_mod_cast lowEnd_lt hm) (by positivity)
  have hhigh : (4 * mantissa : ℚ) * 2 ^ (exponent - 2) <
      (4 * mantissa + 2) * 2 ^ (exponent - 2) :=
    mul_lt_mul_of_pos_right (by linarith) (by positivity)
  rw [hvalue]
  exact ⟨hlow.le, hhigh.le, fun _ => ⟨hlow, hhigh⟩⟩

/-! ### The two neighbours on a grid -/

/-- A quarter of the last place, in units of a grid. -/
def quarter (exponent power : Int) : Fraction :=
  (Fraction.scaled ⟨1, 1⟩ 2 (exponent - 2)).scaled 10 (-power)

theorem denominator_quarter_pos (exponent power : Int) : 0 < (quarter exponent power).denominator :=
  Fraction.denominator_scaled_pos (Fraction.denominator_scaled_pos (by decide) (by decide) _)
    (by decide) _

theorem numerator_quarter_pos (exponent power : Int) : 0 < (quarter exponent power).numerator := by
  simp only [quarter, Fraction.scaled, Nat.pow_eq]
  positivity

/-- Quarters and points of a grid are both counted in one unit. -/
theorem exists_unit (exponent power : Int) :
    ∃ unit : ℚ, 0 < unit ∧ 2 ^ (exponent - 2) = unit * (quarter exponent power).numerator ∧
      10 ^ power = unit * (quarter exponent power).denominator := by
  have hpos : (0 : ℚ) < (quarter exponent power).denominator := by
    exact_mod_cast denominator_quarter_pos exponent power
  have hvalue : (quarter exponent power).value = 2 ^ (exponent - 2) * (10 ^ power)⁻¹ := by
    rw [quarter, Fraction.value_scaled _ (by decide), Fraction.value_scaled _ (by decide)]
    simp [Fraction.value]
  refine ⟨10 ^ power / (quarter exponent power).denominator, by positivity, ?_, ?_⟩
  · rw [Fraction.value, div_eq_iff hpos.ne'] at hvalue
    rw [hvalue]
    field_simp
  · field_simp

/-- A comparison at an end of the interval, which belongs to it if the mantissa is even. -/
def AtMost (mantissa x y : Nat) : Prop :=
  if mantissa % 2 = 0 then x ≤ y else x < y

instance (mantissa x y : Nat) : Decidable (AtMost mantissa x y) :=
  inferInstanceAs (Decidable (if mantissa % 2 = 0 then x ≤ y else x < y))

theorem AtMost.le {x y : Nat} (h : AtMost mantissa x y) : x ≤ y := by
  unfold AtMost at h
  split at h
  · exact h
  · exact Nat.le_of_lt h

theorem AtMost.lt {x y : Nat} (h : AtMost mantissa x y) (hodd : mantissa % 2 = 1) : x < y := by
  rwa [AtMost, if_neg (by omega)] at h

theorem atMost_of_lt {x y : Nat} (h : x < y) : AtMost mantissa x y := by
  unfold AtMost
  split
  · exact h.le
  · exact h

/-- A point of a grid is in the interval if it is so in units. -/
theorem around_of_units {point : Nat} {power : Int}
    (hlow : AtMost mantissa (lowEnd mantissa exponent * (quarter exponent power).numerator)
      (point * (quarter exponent power).denominator))
    (hhigh : AtMost mantissa (point * (quarter exponent power).denominator)
      ((4 * mantissa + 2) * (quarter exponent power).numerator)) :
    Around mantissa exponent (point * 10 ^ power) := by
  obtain ⟨unit, hunit, hquarter, hten⟩ := exists_unit exponent power
  have hle : ∀ {x y : Nat}, x ≤ y → unit * (x : ℚ) ≤ unit * y := fun h =>
    mul_le_mul_of_nonneg_left (by exact_mod_cast h) hunit.le
  have hlt : ∀ {x y : Nat}, x < y → unit * (x : ℚ) < unit * y := fun h =>
    mul_lt_mul_of_pos_left (by exact_mod_cast h) hunit
  refine ⟨?_, ?_, fun hodd => ⟨?_, ?_⟩⟩
  · have h := hle hlow.le
    push_cast at h
    rw [hquarter, hten]
    linarith
  · have h := hle hhigh.le
    push_cast at h
    rw [hquarter, hten]
    linarith
  · have h := hlt (hlow.lt hodd)
    push_cast at h
    rw [hquarter, hten]
    linarith
  · have h := hlt (hhigh.lt hodd)
    push_cast at h
    rw [hquarter, hten]
    linarith

/-- One of two neighbours is chosen only if it is good. -/
theorem choice_cases {belowGood aboveGood : Prop} [Decidable belowGood] [Decidable aboveGood]
    {order : Ordering} {tie : Tie} {below above : Nat} {power : Int} {d : Decimal}
    (h : (if belowGood ∧ aboveGood then
        match order with
        | .lt => some ⟨below, power⟩
        | .gt => some ⟨above, power⟩
        | .eq =>
          match tie with
          | .away => some ⟨above, power⟩
          | .even => some ⟨if below % 2 = 0 then below else above, power⟩
      else if belowGood then some ⟨below, power⟩
      else if aboveGood then some ⟨above, power⟩
      else none) = some d) :
    (d = ⟨below, power⟩ ∧ belowGood) ∨ (d = ⟨above, power⟩ ∧ aboveGood) := by
  by_cases hbelow : belowGood
  · by_cases habove : aboveGood
    · rw [if_pos ⟨hbelow, habove⟩] at h
      cases order with
      | lt => exact Or.inl ⟨(Option.some.inj h).symm, hbelow⟩
      | gt => exact Or.inr ⟨(Option.some.inj h).symm, habove⟩
      | eq =>
        cases tie with
        | away => exact Or.inr ⟨(Option.some.inj h).symm, habove⟩
        | even =>
          by_cases heven : below % 2 = 0
          · simp only [heven, if_true] at h
            exact Or.inl ⟨(Option.some.inj h).symm, hbelow⟩
          · simp only [heven, if_false] at h
            exact Or.inr ⟨(Option.some.inj h).symm, habove⟩
    · rw [if_neg fun hboth => habove hboth.2, if_pos hbelow] at h
      exact Or.inl ⟨(Option.some.inj h).symm, hbelow⟩
  · rw [if_neg fun hboth => hbelow hboth.1, if_neg hbelow] at h
    by_cases habove : aboveGood
    · rw [if_pos habove] at h
      exact Or.inr ⟨(Option.some.inj h).symm, habove⟩
    · rw [if_neg habove] at h
      cases h

/-- What the search has found is one of the two neighbours, and has not left the interval
on its side. -/
theorem onGrid_cases {tie : Tie} {power : Int} {d : Decimal}
    (h : onGrid tie mantissa exponent power = some d) :
    ∃ below, below = 4 * mantissa * (quarter exponent power).numerator /
        (quarter exponent power).denominator ∧
      ((d = ⟨below, power⟩ ∧
          AtMost mantissa (lowEnd mantissa exponent * (quarter exponent power).numerator)
            (below * (quarter exponent power).denominator)) ∨
        (d = ⟨below + 1, power⟩ ∧
          AtMost mantissa ((below + 1) * (quarter exponent power).denominator)
            ((4 * mantissa + 2) * (quarter exponent power).numerator))) := by
  refine ⟨_, rfl, ?_⟩
  unfold onGrid at h
  exact choice_cases h

/-- **What is found on a grid is in the interval.** -/
theorem around_onGrid {tie : Tie} {power : Int} {d : Decimal} (hm : 0 < mantissa)
    (h : onGrid tie mantissa exponent power = some d) : Around mantissa exponent d.value := by
  have hden := denominator_quarter_pos exponent power
  have hnum := numerator_quarter_pos exponent power
  obtain ⟨below, hbelow, ⟨rfl, hlow⟩ | ⟨rfl, hhigh⟩⟩ := onGrid_cases h
  · refine around_of_units hlow (atMost_of_lt ?_)
    calc below * (quarter exponent power).denominator
        ≤ 4 * mantissa * (quarter exponent power).numerator := by
          rw [hbelow]
          exact Nat.div_mul_le_self _ _
      _ < (4 * mantissa + 2) * (quarter exponent power).numerator :=
          Nat.mul_lt_mul_of_pos_right (by omega) hnum
  · refine around_of_units (atMost_of_lt ?_) hhigh
    calc lowEnd mantissa exponent * (quarter exponent power).numerator
        ≤ 4 * mantissa * (quarter exponent power).numerator :=
          Nat.mul_le_mul_right _ (lowEnd_lt hm).le
      _ < (below + 1) * (quarter exponent power).denominator := by
          rw [hbelow]
          exact Nat.lt_mul_of_div_lt (Nat.lt_succ_self _) hden

/-- **The shortest decimal of a double is in its interval.** -/
theorem around_shortest (tie : Tie) (hm : 0 < mantissa) :
    Around mantissa exponent (shortest tie mantissa exponent).value := by
  unfold shortest
  rw [if_neg hm.ne']
  simp only [Decimal.value_stripped]
  cases hfound : (List.range 17).findSome? fun n : Nat =>
      onGrid tie mantissa exponent
        ((Fraction.scaled ⟨mantissa, 1⟩ 2 exponent).decimalPoint - (n + 1)) with
  | none =>
    rw [Option.getD_none, Decimal.value_exact]
    exact around_self hm
  | some d =>
    obtain ⟨n, -, hgrid⟩ := List.exists_of_findSome?_eq_some hfound
    exact around_onGrid hm hgrid

/-! ### Reading a decimal -/

/-- A number above zero lies between the powers of ten that its digits are counted by. -/
theorem digitCount_bounds {n : Nat} (hn : 0 < n) :
    10 ^ digitCount n ≤ 10 * n ∧ n < 10 ^ digitCount n := by
  have hpos : 0 < digitCount n := Nat.length_toDigits_pos
  have hcount : ∀ {k : Nat}, 0 < k → (digitCount n ≤ k ↔ n < 10 ^ k) :=
    Nat.length_toDigits_le_iff (by decide)
  refine ⟨?_, (hcount hpos).mp le_rfl⟩
  obtain ⟨k, hk⟩ : ∃ k, digitCount n = k + 1 := ⟨digitCount n - 1, by omega⟩
  rw [hk, Nat.pow_succ, Nat.mul_comm]
  refine Nat.mul_le_mul_left 10 ?_
  by_contra hlt
  rw [not_le] at hlt
  by_cases hzero : k = 0
  · rw [hzero] at hlt
    omega
  · have hle := (hcount (Nat.pos_of_ne_zero hzero)).mpr hlt
    omega

/-- The digits of a decimal and its power tell where its leading digit is. -/
theorem value_between_powers {digits : Nat} (hdigits : 0 < digits) (power : Int) :
    (10 : ℚ) ^ ((digitCount digits : Int) + power) ≤ 10 * (digits * 10 ^ power) ∧
      digits * 10 ^ power < (10 : ℚ) ^ ((digitCount digits : Int) + power) := by
  obtain ⟨hlow, hhigh⟩ := digitCount_bounds hdigits
  have hpower : (0 : ℚ) < 10 ^ power := by positivity
  rw [zpow_add₀ (by norm_num), zpow_natCast, ← mul_assoc]
  refine ⟨mul_le_mul_of_nonneg_right ?_ hpower.le, mul_lt_mul_of_pos_right ?_ hpower⟩
  · exact_mod_cast hlow
  · exact_mod_cast hhigh

/-- A power of ten is above the power of two with thrice its exponent. -/
theorem two_pow_le_ten_pow {n k : Nat} (h : k ≤ 3 * n) : (2 : ℚ) ^ k ≤ 10 ^ n :=
  calc (2 : ℚ) ^ k ≤ 2 ^ (3 * n) := pow_le_pow_right₀ (by norm_num) h
    _ = 8 ^ n := by rw [pow_mul]; norm_num
    _ ≤ 10 ^ n := pow_le_pow_left₀ (by norm_num) (by norm_num) n

/-- What is around a double is far from the decimals that are settled by their leading
digit. -/
theorem Around.range {x : ℚ} (h : IsDouble mantissa exponent) (hm : 0 < mantissa)
    (ha : Around mantissa exponent x) : (10 : ℚ) ^ (-400 : Int) ≤ x ∧ x < 10 ^ (399 : Int) := by
  have hleast : (-1074 : Int) ≤ exponent := h.least
  have hgreatest : exponent ≤ 971 := h.greatest
  have htwo : (2 : ℚ) ≤ lowEnd mantissa exponent := by exact_mod_cast two_le_lowEnd hm
  have hpos : (0 : ℚ) < 2 ^ (exponent - 2) := by positivity
  refine ⟨?_, ?_⟩
  · calc (10 : ℚ) ^ (-400 : Int) = (10 ^ 400)⁻¹ := by rw [zpow_neg, zpow_ofNat]
      _ ≤ (2 ^ 1076)⁻¹ := inv_anti₀ (by positivity) (two_pow_le_ten_pow (by decide))
      _ = 2 ^ (-1076 : Int) := by rw [zpow_neg, zpow_ofNat]
      _ ≤ 2 ^ (exponent - 2) := zpow_le_zpow_right₀ (by norm_num) (by omega)
      _ ≤ lowEnd mantissa exponent * 2 ^ (exponent - 2) :=
          le_mul_of_one_le_left hpos.le (by linarith)
      _ ≤ x := ha.low
  · calc x < 2 ^ (exponent + 53) := ha.lt_power h
      _ ≤ 2 ^ (1024 : Int) := zpow_le_zpow_right₀ (by norm_num) (by omega)
      _ = 2 ^ 1024 := zpow_ofNat 2 1024
      _ ≤ 10 ^ 399 := two_pow_le_ten_pow (by decide)
      _ = 10 ^ (399 : Int) := (zpow_ofNat 10 399).symm

/-- **A decimal in the interval of a double stands for it.** -/
theorem ofDecimal_of_around (h : IsDouble mantissa exponent) (hm : 0 < mantissa) {digits : Nat}
    {power : Int} (ha : Around mantissa exponent (digits * 10 ^ power)) (negative : Bool) :
    ofDecimal negative digits power = .finite negative mantissa exponent := by
  have hdigits : 0 < digits := by
    have hpos := ha.pos hm
    by_contra hzero
    simp [Nat.eq_zero_of_not_pos hzero] at hpos
  obtain ⟨hlow, hhigh⟩ := ha.range h hm
  obtain ⟨hleading, hleading'⟩ := value_between_powers hdigits power
  have hmin : (-400 : Int) < digitCount digits + power :=
    (zpow_lt_zpow_iff_right₀ (by norm_num)).mp (hlow.trans_lt hleading')
  have hmax : (digitCount digits + power : Int) < 400 := by
    refine (zpow_lt_zpow_iff_right₀ (by norm_num : (1 : ℚ) < 10)).mp (hleading.trans_lt ?_)
    rw [show (400 : Int) = 1 + 399 from rfl, zpow_one_add₀ (by norm_num)]
    exact mul_lt_mul_of_pos_left hhigh (by norm_num)
  have hsmall : ¬ (digits = 0 ∨ (digitCount digits + power : Int) < -400) := by omega
  have hlarge : ¬ 400 < (digitCount digits + power : Int) := by omega
  unfold ofDecimal
  simp only [hsmall, hlarge, if_false]
  refine nearest_of_around (Fraction.denominator_scaled_pos Nat.one_pos (by decide) _) h hm ?_ _
  rw [Fraction.value_scaled _ (by decide)]
  simpa [Fraction.value] using ha

end Number

end TemplateTree
