/-
Numbers as double precision holds them.

A template may pass a number to a helper, and what the helper gets is the double
nearest to what was written.  So a number is kept in the form that rounding
produces: a sign, a whole mantissa, and a power of two.  `Number.nearest` is the
only way a finite number comes into being, and it is exact integer arithmetic
throughout: the fraction is scaled until its whole part has the right number of
binary places, and then rounded once.
-/

namespace TemplateTree

/-- A double: `mantissa * 2 ^ exponent` with a sign, or one of the values that are
not finite.  A mantissa below `2 ^ 52` goes with the least exponent only, so each
double has one form. -/
inductive Number
  | notANumber
  | infinite (negative : Bool)
  | finite (negative : Bool) (mantissa : Nat) (exponent : Int)
  deriving DecidableEq, Repr

namespace Number

/-- The exponent of the smallest double above zero. -/
def leastExponent : Int := -1074

/-- The exponent of the largest finite double. -/
def greatestExponent : Int := 971

/-- A mantissa stays below this. -/
def mantissaBound : Nat := Nat.pow 2 53

/-- Zero, with its sign. -/
def zero (negative : Bool) : Number :=
  .finite negative 0 leastExponent

/-- A positive fraction. -/
structure Fraction where
  numerator : Nat
  denominator : Nat

/-- The fraction times a power of `base`, with either sign of the power. -/
def Fraction.scaled (f : Fraction) (base : Nat) (power : Int) : Fraction :=
  ⟨f.numerator * Nat.pow base power.toNat, f.denominator * Nat.pow base (-power).toNat⟩

/-- The power of two at or just below the fraction. -/
def Fraction.log2 (f : Fraction) : Int :=
  let guess : Int := (Nat.log2 f.numerator : Int) - Nat.log2 f.denominator
  let scaled := f.scaled 2 (-guess)
  if scaled.denominator ≤ scaled.numerator then guess else guess - 1

/-- The nearest whole number; a half goes to the even neighbour. -/
def Fraction.rounded (f : Fraction) : Nat :=
  let whole := f.numerator / f.denominator
  let rest := f.numerator % f.denominator
  if 2 * rest < f.denominator then whole
  else if f.denominator < 2 * rest then whole + 1
  else whole + whole % 2

/-- The double nearest to a fraction, a half going to the even neighbour; beyond the
largest double, infinity. -/
def nearest (negative : Bool) (f : Fraction) : Number :=
  if f.numerator = 0 then zero negative
  else
    let exponent := max leastExponent (f.log2 - 52)
    let mantissa := (f.scaled 2 (-exponent)).rounded
    -- rounding up may reach the bound, which is the next power of two
    let (mantissa, exponent) :=
      if mantissa < mantissaBound then (mantissa, exponent) else (mantissa / 2, exponent + 1)
    if greatestExponent < exponent then .infinite negative
    else .finite negative mantissa exponent

/-- Rounding is off by at most a half. -/
theorem Fraction.rounded_within (f : Fraction) (h : 0 < f.denominator) :
    2 * f.numerator ≤ (2 * f.rounded + 1) * f.denominator ∧
      2 * f.rounded * f.denominator ≤ 2 * f.numerator + f.denominator := by
  have hdiv := Nat.div_add_mod f.numerator f.denominator
  have hmod := Nat.mod_lt f.numerator h
  have hw : f.denominator * (f.numerator / f.denominator) =
      (f.numerator / f.denominator) * f.denominator := Nat.mul_comm ..
  unfold Fraction.rounded
  simp only []
  split
  · constructor <;> grind
  · split
    · constructor <;> grind
    · rcases Nat.mod_two_eq_zero_or_one (f.numerator / f.denominator) with h2 | h2 <;>
        rw [h2] <;> constructor <;> grind

/-- A rounded half is even. -/
theorem Fraction.rounded_half_even (f : Fraction)
    (h : 2 * (f.numerator % f.denominator) = f.denominator) : f.rounded % 2 = 0 := by
  unfold Fraction.rounded
  simp only [h, Nat.lt_irrefl, if_false]
  omega

end Number

end TemplateTree
