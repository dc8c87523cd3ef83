/-
Reading a decimal.

The grammar is: a sign or none; then `inf`, `infinity` or `nan` in any case, or
digits with at most one point among or around them and at least one digit in all;
then, after digits, an exponent or none.  What is read is the exact decimal, and
`Number.nearest` rounds it once.
-/
import TemplateTree.Number.Basic

namespace TemplateTree

namespace Number

/-- The value of a row of digits. -/
def digitsValue (digits : List Char) : Nat :=
  digits.foldl (fun value d => 10 * value + (d.toNat - '0'.toNat)) 0

/-- How many digits a number has. -/
def digitCount (n : Nat) : Nat :=
  (Nat.toDigits 10 n).length

/-- A sign, if the text begins with one, and the rest. -/
def readSign : List Char → Bool × List Char
  | '-' :: rest => (true, rest)
  | '+' :: rest => (false, rest)
  | text => (false, text)

/-- An exponent that ends the text, or nothing: no exponent is the exponent zero. -/
def readExponent : List Char → Option Int
  | [] => some 0
  | mark :: rest =>
    if mark = 'e' ∨ mark = 'E' then
      let (negative, digits) := readSign rest
      if digits ≠ [] ∧ digits.all Char.isDigit then
        let size : Int := digitsValue digits
        some (if negative then -size else size)
      else none
    else none

/-- The double nearest to `digits * 10 ^ power`.  A decimal whose leading digit lies
far outside the range of doubles is settled before its power of ten is built. -/
def ofDecimal (negative : Bool) (digits : Nat) (power : Int) : Number :=
  let leading := (digitCount digits : Int) + power
  if digits = 0 ∨ leading < -400 then zero negative
  else if 400 < leading then .infinite negative
  else nearest negative (Fraction.scaled ⟨digits, 1⟩ 10 power)

/-- Digits, a point or none, an exponent or none. -/
def readDecimal (negative : Bool) (text : List Char) : Option Number :=
  let whole := text.takeWhile Char.isDigit
  let (fraction, rest) :=
    match text.dropWhile Char.isDigit with
    | '.' :: rest => (rest.takeWhile Char.isDigit, rest.dropWhile Char.isDigit)
    | rest => ([], rest)
  if whole = [] ∧ fraction = [] then none
  else
    (readExponent rest).map fun exponent =>
      ofDecimal negative (digitsValue (whole ++ fraction)) (exponent - fraction.length)

/-- The number a text stands for, if it is a decimal or names a value that is not
finite. -/
def read? (text : String) : Option Number :=
  let (negative, rest) := readSign text.toList
  let name := rest.map Char.toLower
  if name = "inf".toList ∨ name = "infinity".toList then some (.infinite negative)
  else if name = "nan".toList then some .notANumber
  else readDecimal negative rest

end Number

end TemplateTree
