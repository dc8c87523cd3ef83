/-
Which decimals read as a double.

The reals that round to a double lie between the midpoints to its neighbours, and the
midpoints themselves belong to it if its mantissa is even.  `Around` is that interval,
with its ends counted in quarters of the last place as the search for a shortest decimal
counts them, and rounding answers with the double throughout it.

Below a power of two the doubles are twice as dense.  There the fraction has one binary
place less than the double, so it is rounded at the finer step, and comes out as the bound
of mantissas, which is the power of two.
-/
import Mathlib
import TemplateTree.Number.Shortest

namespace TemplateTree

namespace Number

/-- A mantissa and an exponent that a double has.  A mantissa with fewer binary places
than there are goes with the least exponent only. -/
structure IsDouble (mantissa : Nat) (exponent : Int) : Prop where
  bound : mantissa < mantissaBound
  least : leastExponent ≤ exponent
  greatest : exponent ≤ greatestExponent
  normal : 2 ^ 52 ≤ mantissa ∨ exponent = leastExponent

/-! ### Fractions -/

namespace Fraction

/-- What a fraction stands for. -/
def value (f : Fraction) : ℚ :=
  f.numerator / f.denominator

theorem denominator_scaled_pos {f : Fraction} (h : 0 < f.denominator) {base : Nat}
    (hbase : 0 < base) (power : Int) : 0 < (f.scaled base power).denominator :=
  Nat.mul_pos h (Nat.pow_pos hbase)

theorem value_scaled (f : Fraction) {base : Nat} (hbase : 0 < base) (power : Int) :
    (f.scaled base power).value = f.value * (base : ℚ) ^ power := by
  have hne : (base : ℚ) ≠ 0 := by exact_mod_cast hbase.ne'
  obtain ⟨n, rfl | rfl⟩ := power.eq_nat_or_neg
  · simp [scaled, value, mul_div_right_comm]
  · simp [scaled, value, div_eq_mul_inv, mul_comm, mul_left_comm]

/-- The lengths of the numerator and the denominator leave two powers of two. -/
theorem value_between {f : Fraction} (hn : 0 < f.numerator) (hd : 0 < f.denominator) :
    (2 : ℚ) ^ ((Nat.log2 f.numerator : Int) - Nat.log2 f.denominator - 1) < f.value ∧
      f.value < 2 ^ ((Nat.log2 f.numerator : Int) - Nat.log2 f.denominator + 1) := by
  have hn₁ : (2 : ℚ) ^ Nat.log2 f.numerator ≤ f.numerator := by
    exact_mod_cast Nat.log2_self_le hn.ne'
  have hn₂ : (f.numerator : ℚ) < 2 ^ (Nat.log2 f.numerator + 1) := by
    exact_mod_cast Nat.lt_log2_self
  have hd₁ : (2 : ℚ) ^ Nat.log2 f.denominator ≤ f.denominator := by
    exact_mod_cast Nat.log2_self_le hd.ne'
  have hd₂ : (f.denominator : ℚ) < 2 ^ (Nat.log2 f.denominator + 1) := by
    exact_mod_cast Nat.lt_log2_self
  have hpos : (0 : ℚ) < f.denominator := by exact_mod_cast hd
  have hlow : (2 : ℚ) ^ ((Nat.log2 f.numerator : Int) - Nat.log2 f.denominator - 1) =
      2 ^ Nat.log2 f.numerator / 2 ^ (Nat.log2 f.denominator + 1) := by
    rw [sub_sub, zpow_sub₀ two_ne_zero]
    norm_cast
  have hhigh : (2 : ℚ) ^ ((Nat.log2 f.numerator : Int) - Nat.log2 f.denominator + 1) =
      2 ^ (Nat.log2 f.numerator + 1) / 2 ^ Nat.log2 f.denominator := by
    rw [sub_add_eq_add_sub, zpow_sub₀ two_ne_zero]
    norm_cast
  rw [hlow, hhigh, value]
  refine ⟨?_, ?_⟩
  · exact div_lt_div₀' hn₁ hd₂ (by positivity) (by positivity)
  · exact div_lt_div₀ hn₂ hd₁ (by positivity) (by positivity)

/-- A fraction above zero lies between the power of two at or below it and the next. -/
theorem log2_bounds {f : Fraction} (hn : 0 < f.numerator) (hd : 0 < f.denominator) :
    (2 : ℚ) ^ f.log2 ≤ f.value ∧ f.value < 2 ^ (f.log2 + 1) := by
  obtain ⟨hlow, hhigh⟩ := value_between hn hd
  unfold log2
  simp only
  generalize hguess : (Nat.log2 f.numerator : Int) - Nat.log2 f.denominator = guess at hlow hhigh ⊢
  have hpos := f.denominator_scaled_pos hd (by decide : 0 < 2) (-guess)
  have htest : (f.scaled 2 (-guess)).denominator ≤ (f.scaled 2 (-guess)).numerator ↔
      (2 : ℚ) ^ guess ≤ f.value := by
    have hone : (f.scaled 2 (-guess)).denominator ≤ (f.scaled 2 (-guess)).numerator ↔
        1 ≤ (f.scaled 2 (-guess)).value := by
      rw [value, one_le_div (by exact_mod_cast hpos)]
      norm_cast
    rw [hone, f.value_scaled (by decide), zpow_neg, ← div_eq_mul_inv, Nat.cast_two,
      one_le_div (by positivity)]
  split
  · rename_i h
    exact ⟨htest.mp h, hhigh⟩
  · rename_i h
    rw [htest, not_le] at h
    refine ⟨hlow.le, ?_⟩
    rwa [sub_add_cancel]

/-- The powers of two around a fraction are its only ones. -/
theorem log2_eq {f : Fraction} (hn : 0 < f.numerator) (hd : 0 < f.denominator) {power : Int}
    (hlow : (2 : ℚ) ^ power ≤ f.value) (hhigh : f.value < 2 ^ (power + 1)) : f.log2 = power := by
  obtain ⟨hlow', hhigh'⟩ := log2_bounds hn hd
  have h₁ : power < f.log2 + 1 :=
    (zpow_lt_zpow_iff_right₀ (by norm_num)).mp (hlow.trans_lt hhigh')
  have h₂ : f.log2 < power + 1 :=
    (zpow_lt_zpow_iff_right₀ (by norm_num)).mp (hlow'.trans_lt hhigh)
  omega

theorem half_of_mid {n d whole : Nat} (hd : 0 < d) (h : 2 * n = (2 * whole + 1) * d) :
    2 * (n % d) = d := by
  have hexpand : (2 * whole + 1) * d = 2 * (whole * d) + d := by ring
  obtain ⟨half, hhalf⟩ : ∃ half, n = half + whole * d := ⟨n - whole * d, by omega⟩
  have htwice : 2 * half = d := by omega
  rw [hhalf, Nat.add_mul_mod_self_right, Nat.mod_eq_of_lt (by omega), htwice]

/-- Rounding to a whole number, with everything multiplied out. -/
theorem rounded_eq_of_le {f : Fraction} (hd : 0 < f.denominator) {whole : Nat}
    (hlow : 2 * whole * f.denominator ≤ 2 * f.numerator + f.denominator)
    (hhigh : 2 * f.numerator ≤ (2 * whole + 1) * f.denominator)
    (hodd : whole % 2 = 1 → 2 * whole * f.denominator < 2 * f.numerator + f.denominator ∧
      2 * f.numerator < (2 * whole + 1) * f.denominator) :
    f.rounded = whole := by
  obtain ⟨habove, hbelow⟩ := f.rounded_within hd
  have hle : 2 * whole ≤ 2 * f.rounded + 2 := by
    refine Nat.le_of_mul_le_mul_right ?_ hd
    calc 2 * whole * f.denominator
        ≤ (2 * f.rounded + 1) * f.denominator + f.denominator := by omega
      _ = (2 * f.rounded + 2) * f.denominator := by ring
  have hge : 2 * f.rounded ≤ 2 * whole + 2 := by
    refine Nat.le_of_mul_le_mul_right ?_ hd
    calc 2 * f.rounded * f.denominator
        ≤ (2 * whole + 1) * f.denominator + f.denominator := by omega
      _ = (2 * whole + 2) * f.denominator := by ring
  -- a neighbour leaves only the point half way to it, where the even one was taken
  by_contra hne
  have hneighbour : f.rounded = whole + 1 ∨ whole = f.rounded + 1 := by omega
  rcases hneighbour with hmore | hless
  · have hexpand : 2 * (whole + 1) * f.denominator =
        (2 * whole + 1) * f.denominator + f.denominator := by ring
    rw [hmore] at hbelow
    have heven := f.rounded_half_even (half_of_mid hd (by omega : _ = (2 * whole + 1) * _))
    have hstrict := (hodd (by omega)).2
    omega
  · have hexpand : 2 * (f.rounded + 1) * f.denominator =
        (2 * f.rounded + 1) * f.denominator + f.denominator := by ring
    rw [hless] at hlow hodd
    have heven := f.rounded_half_even (half_of_mid hd (by omega : _ = (2 * f.rounded + 1) * _))
    have hstrict := (hodd (by omega)).1
    omega

/-- **What is nearer to a whole number than to any other rounds to it**, and so does what
is half way from an even one. -/
theorem rounded_eq {f : Fraction} (hd : 0 < f.denominator) {whole : Nat}
    (hlow : (whole : ℚ) - 1 / 2 ≤ f.value) (hhigh : f.value ≤ whole + 1 / 2)
    (hodd : whole % 2 = 1 → (whole : ℚ) - 1 / 2 < f.value ∧ f.value < whole + 1 / 2) :
    f.rounded = whole := by
  have hpos : (0 : ℚ) < f.denominator := by exact_mod_cast hd
  rw [value, le_div_iff₀ hpos] at hlow
  rw [value, div_le_iff₀ hpos] at hhigh
  rw [value, lt_div_iff₀ hpos, div_lt_iff₀ hpos] at hodd
  refine rounded_eq_of_le hd ?_ ?_ ?_
  · have h : (2 * whole * f.denominator : ℚ) ≤ 2 * f.numerator + f.denominator := by linarith
    exact_mod_cast h
  · have h : (2 * f.numerator : ℚ) ≤ (2 * whole + 1) * f.denominator := by linarith
    exact_mod_cast h
  · intro hwhole
    obtain ⟨hlow', hhigh'⟩ := hodd hwhole
    have h₁ : (2 * whole * f.denominator : ℚ) < 2 * f.numerator + f.denominator := by linarith
    have h₂ : (2 * f.numerator : ℚ) < (2 * whole + 1) * f.denominator := by linarith
    exact ⟨by exact_mod_cast h₁, by exact_mod_cast h₂⟩

end Fraction

/-! ### The interval of a double -/

/-- The lower end of the interval of a double, in quarters of the last place: two below
the double, or one below a power of two. -/
def lowEnd (mantissa : Nat) (exponent : Int) : Nat :=
  4 * mantissa - if 2 * mantissa = mantissaBound ∧ leastExponent < exponent then 1 else 2

/-- A number in the interval of a double, the ends of which belong to it if the mantissa
is even. -/
structure Around (mantissa : Nat) (exponent : Int) (x : ℚ) : Prop where
  low : lowEnd mantissa exponent * (2 : ℚ) ^ (exponent - 2) ≤ x
  high : x ≤ (4 * mantissa + 2) * (2 : ℚ) ^ (exponent - 2)
  odd : mantissa % 2 = 1 → lowEnd mantissa exponent * (2 : ℚ) ^ (exponent - 2) < x ∧
    x < (4 * mantissa + 2) * (2 : ℚ) ^ (exponent - 2)

/-- Places of a double in quarters of its last one. -/
theorem zpow_add_places (exponent : Int) (places : Nat) :
    (2 : ℚ) ^ (exponent + places) = 2 ^ (places + 2) * 2 ^ (exponent - 2) := by
  rw [← zpow_natCast, ← zpow_add₀ two_ne_zero]
  congr 1
  push_cast
  ring

variable {mantissa : Nat} {exponent : Int}

theorem two_le_lowEnd (hm : 0 < mantissa) : 2 ≤ lowEnd mantissa exponent := by
  unfold lowEnd
  split <;> omega

theorem le_lowEnd : (4 * mantissa - 2 : ℚ) ≤ lowEnd mantissa exponent := by
  have hle : 4 * mantissa ≤ lowEnd mantissa exponent + 2 := by
    unfold lowEnd
    split <;> omega
  have hcast : ((4 * mantissa : Nat) : ℚ) ≤ (lowEnd mantissa exponent + 2 : Nat) := by
    exact_mod_cast hle
  push_cast at hcast
  linarith

theorem Around.pos {x : ℚ} (h : Around mantissa exponent x) (hm : 0 < mantissa) : 0 < x := by
  have hlow : (0 : ℚ) < lowEnd mantissa exponent := by
    exact_mod_cast lt_of_lt_of_le (by decide) (two_le_lowEnd hm)
  exact (by positivity : (0 : ℚ) < lowEnd mantissa exponent * 2 ^ (exponent - 2)).trans_le h.low

theorem Around.le_value {x : ℚ} (h : Around mantissa exponent x) :
    (4 * mantissa - 2) * (2 : ℚ) ^ (exponent - 2) ≤ x :=
  (mul_le_mul_of_nonneg_right le_lowEnd (by positivity)).trans h.low

theorem Around.lt_value {x : ℚ} (h : Around mantissa exponent x) (hodd : mantissa % 2 = 1) :
    (4 * mantissa - 2) * (2 : ℚ) ^ (exponent - 2) < x :=
  (mul_le_mul_of_nonneg_right le_lowEnd (by positivity)).trans_lt (h.odd hodd).1

/-- With as many binary places as the double has, rounding gives its mantissa. -/
theorem Around.rounded {f : Fraction} (hd : 0 < f.denominator)
    (ha : Around mantissa exponent f.value) :
    (f.scaled 2 (-exponent)).rounded = mantissa := by
  have hvalue : (f.scaled 2 (-exponent)).value = f.value / (4 * 2 ^ (exponent - 2)) := by
    rw [f.value_scaled (by decide), Nat.cast_two, zpow_neg, ← div_eq_mul_inv]
    have hplaces := zpow_add_places exponent 0
    norm_num at hplaces
    rw [hplaces]
  have hquarter : (0 : ℚ) < 4 * 2 ^ (exponent - 2) := by positivity
  refine Fraction.rounded_eq (f.denominator_scaled_pos hd (by decide) _) ?_ ?_ ?_
  · rw [hvalue, le_div_iff₀ hquarter]
    linarith [ha.le_value]
  · rw [hvalue, div_le_iff₀ hquarter]
    linarith [ha.high]
  · intro hodd
    rw [hvalue, lt_div_iff₀ hquarter, div_lt_iff₀ hquarter]
    exact ⟨by linarith [ha.lt_value hodd], by linarith [(ha.odd hodd).2]⟩

/-- The interval of a double ends before the power of two above it. -/
theorem Around.lt_power {x : ℚ} (h : IsDouble mantissa exponent)
    (ha : Around mantissa exponent x) : x < 2 ^ (exponent + 53) := by
  have hbound : (mantissa : ℚ) + 1 ≤ 2 ^ 53 := by exact_mod_cast h.bound
  calc x ≤ (4 * mantissa + 2) * 2 ^ (exponent - 2) := ha.high
    _ < 2 ^ 55 * 2 ^ (exponent - 2) := by
        refine mul_lt_mul_of_pos_right ?_ (by positivity)
        norm_num at hbound ⊢
        linarith
    _ = 2 ^ (exponent + 53) := (zpow_add_places exponent 53).symm

/-- Its other end is a place shorter than the double only below a power of two. -/
theorem Around.mantissa_eq {x : ℚ} (ha : Around mantissa exponent x) (hnormal : 2 ^ 52 ≤ mantissa)
    (hshort : x < 2 ^ (exponent + 52)) : mantissa = 2 ^ 52 := by
  have hquarter : (0 : ℚ) < 2 ^ (exponent - 2) := by positivity
  rw [show (52 : Int) = (52 : Nat) from rfl, zpow_add_places] at hshort
  have hlt := lt_of_mul_lt_mul_right (ha.le_value.trans_lt hshort) hquarter.le
  have hlt' : (4 * mantissa : ℚ) < 2 ^ 54 + 2 := by
    norm_num at hlt ⊢
    linarith
  have hlt'' : 4 * mantissa < 2 ^ 54 + 2 := by exact_mod_cast hlt'
  omega

/-- A number in the interval of a double has its binary places, except below a power of
two. -/
theorem Around.log2_eq {f : Fraction} (hn : 0 < f.numerator) (hd : 0 < f.denominator)
    (h : IsDouble mantissa exponent) (ha : Around mantissa exponent f.value) :
    max leastExponent (f.log2 - 52) = exponent ∨
      (mantissa = 2 ^ 52 ∧ leastExponent < exponent ∧ f.log2 = exponent + 51) := by
  have hleast := h.least
  have hhigh := ha.lt_power h
  by_cases hfull : (2 : ℚ) ^ (exponent + 52) ≤ f.value
  · have hlog := Fraction.log2_eq hn hd hfull (by rwa [add_assoc])
    left
    omega
  rw [not_le] at hfull
  by_cases hlast : exponent = leastExponent
  · have hlog : f.log2 < exponent + 52 :=
      (zpow_lt_zpow_iff_right₀ (by norm_num)).mp ((Fraction.log2_bounds hn hd).1.trans_lt hfull)
    left
    omega
  · right
    have hmantissa := ha.mantissa_eq (h.normal.resolve_right hlast) hfull
    have hlow : (2 : ℚ) ^ (exponent + 51) ≤ f.value := by
      refine le_trans ?_ ha.le_value
      rw [show (51 : Int) = (51 : Nat) from rfl, zpow_add_places, hmantissa]
      exact mul_le_mul_of_nonneg_right (by norm_num) (by positivity)
    exact ⟨hmantissa, by omega, Fraction.log2_eq hn hd hlow (by rwa [add_assoc])⟩

/-- Below a power of two, rounding at the finer step gives the bound of mantissas. -/
theorem Around.rounded_below {f : Fraction} (hd : 0 < f.denominator)
    (ha : Around (2 ^ 52) exponent f.value) (hleast : leastExponent < exponent)
    (hhigh : f.value < 2 ^ (exponent + 52)) :
    (f.scaled 2 (-(exponent - 1))).rounded = mantissaBound := by
  have hlow := ha.low
  have hquarter : (0 : ℚ) < 2 * 2 ^ (exponent - 2) := by positivity
  have hvalue : (f.scaled 2 (-(exponent - 1))).value = f.value / (2 * 2 ^ (exponent - 2)) := by
    rw [f.value_scaled (by decide), Nat.cast_two, zpow_neg, ← div_eq_mul_inv,
      ← zpow_one_add₀ two_ne_zero]
    congr 2
    ring
  have hend : lowEnd (2 ^ 52) exponent = 2 ^ 54 - 1 := by
    rw [lowEnd, if_pos ⟨rfl, hleast⟩]
    norm_num
  rw [hend] at hlow
  rw [show (52 : Int) = (52 : Nat) from rfl, zpow_add_places] at hhigh
  refine Fraction.rounded_eq (f.denominator_scaled_pos hd (by decide) _) ?_ ?_ ?_
  · rw [hvalue, le_div_iff₀ hquarter]
    norm_num [mantissaBound] at hlow ⊢
    linarith
  · rw [hvalue, div_le_iff₀ hquarter]
    norm_num [mantissaBound] at hhigh ⊢
    linarith
  · intro hodd
    norm_num [mantissaBound] at hodd

/-- **Rounding answers with a double throughout its interval.** -/
theorem nearest_of_around {f : Fraction} (hd : 0 < f.denominator) (h : IsDouble mantissa exponent)
    (hm : 0 < mantissa) (ha : Around mantissa exponent f.value) (negative : Bool) :
    nearest negative f = .finite negative mantissa exponent := by
  have hgreatest : ¬ greatestExponent < exponent := not_lt.mpr h.greatest
  have hn : 0 < f.numerator := by
    have hpos := ha.pos hm
    by_contra hzero
    simp [Fraction.value, Nat.eq_zero_of_not_pos hzero] at hpos
  unfold nearest
  rw [if_neg hn.ne']
  rcases ha.log2_eq hn hd h with hstep | ⟨rfl, hleast, hlog⟩
  · simp only [hstep, ha.rounded hd, h.bound, if_true, hgreatest, if_false]
  · have hhigh := (Fraction.log2_bounds hn hd).2
    rw [hlog, add_assoc] at hhigh
    have hstep : max leastExponent (f.log2 - 52) = exponent - 1 := by omega
    have hrounded := ha.rounded_below hd hleast hhigh
    simp only [hstep, hrounded, lt_irrefl, if_false, sub_add_cancel, hgreatest]
    rfl

end Number

end TemplateTree
