/-
The shortest decimal that reads back.

The reals that round to a double form an interval around it; its ends belong to it
exactly when the mantissa is even, because a half goes to the even neighbour.  A
decimal is a good name for the double if it lies in the interval, and among the
good names with the fewest digits the one nearest to the double is chosen.

The search takes grids of powers of ten, coarse to fine.  On each grid only the
two neighbours of the double matter: if any point of the grid lies in the
interval, one of them does.  When both do and are equally near, the format that
asked says which one it takes.
-/
import TemplateTree.Number.Read

namespace TemplateTree

namespace Number

/-- Which of two equally near decimals a format takes. -/
inductive Tie
  | away
  | even
  deriving DecidableEq, Repr

/-- The decimal `digits * 10 ^ power`. -/
structure Decimal where
  digits : Nat
  power : Int
  deriving DecidableEq, Repr

/-- Moves the zeros at the end of the digits into the power. -/
def Decimal.stripped (d : Decimal) : Decimal :=
  if h : d.digits ≠ 0 ∧ d.digits % 10 = 0 then
    Decimal.stripped ⟨d.digits / 10, d.power + 1⟩
  else d
termination_by d.digits
decreasing_by omega

/-- Every digit of `mantissa * 2 ^ exponent`. -/
def Decimal.exact (mantissa : Nat) (exponent : Int) : Decimal :=
  if 0 ≤ exponent then ⟨mantissa * Nat.pow 2 exponent.toNat, 0⟩
  else ⟨mantissa * Nat.pow 5 (-exponent).toNat, exponent⟩

/-- The least power of ten above a fraction. -/
def Fraction.decimalPoint (f : Fraction) : Int :=
  if f.denominator ≤ f.numerator then digitCount (f.numerator / f.denominator)
  else 1 - (digitCount ((f.denominator - 1) / f.numerator) : Int)

/-- The good name on the grid `10 ^ power`, if there is one.  The mantissa is counted
in quarters, so that both ends of the interval are whole: the upper end is two
quarters away, and so is the lower, except below a power of two, where the doubles
are twice as dense. -/
def onGrid (tie : Tie) (mantissa : Nat) (exponent power : Int) : Option Decimal :=
  let quarter := (Fraction.scaled ⟨1, 1⟩ 2 (exponent - 2)).scaled 10 (-power)
  let value := 4 * mantissa * quarter.numerator
  let low :=
    (4 * mantissa - if 2 * mantissa = mantissaBound ∧ leastExponent < exponent then 1 else 2) *
      quarter.numerator
  let high := (4 * mantissa + 2) * quarter.numerator
  let below := value / quarter.denominator
  let above := below + 1
  let belowGood :=
    if mantissa % 2 = 0 then low ≤ below * quarter.denominator else low < below * quarter.denominator
  let aboveGood :=
    if mantissa % 2 = 0 then above * quarter.denominator ≤ high else above * quarter.denominator < high
  if belowGood ∧ aboveGood then
    match compare (2 * value) ((2 * below + 1) * quarter.denominator) with
    | .lt => some ⟨below, power⟩
    | .gt => some ⟨above, power⟩
    | .eq =>
      match tie with
      | .away => some ⟨above, power⟩
      | .even => some ⟨if below % 2 = 0 then below else above, power⟩
  else if belowGood then some ⟨below, power⟩
  else if aboveGood then some ⟨above, power⟩
  else none

/-- The shortest decimal that reads back as `mantissa * 2 ^ exponent`, nearest first.
Seventeen digits are enough for any double; were they not, all its digits would do. -/
def shortest (tie : Tie) (mantissa : Nat) (exponent : Int) : Decimal :=
  if mantissa = 0 then ⟨0, 0⟩
  else
    let point := (Fraction.scaled ⟨mantissa, 1⟩ 2 exponent).decimalPoint
    let found := (List.range 17).findSome? fun n : Nat =>
      onGrid tie mantissa exponent (point - (n + 1))
    (found.getD (Decimal.exact mantissa exponent)).stripped

end Number

end TemplateTree
