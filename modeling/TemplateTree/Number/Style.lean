/-
How a number is written.

The digits are those of the shortest decimal; all else is a matter of style, and a
style is one record.  A number is written positionally while the exponent of its
leading digit lies in the style's range, and with a power of ten outside it.
-/
import TemplateTree.Number.Shortest

namespace TemplateTree

/-- The decisions of one way to write numbers. -/
structure NumberStyle where
  /-- The decimal taken of two equally near ones. -/
  tie : Number.Tie
  /-- The exponents of the leading digit that are written positionally, ends included;
  without a range, all of them. -/
  positional : Option (Int × Int)
  /-- What follows the last digit of a whole number. -/
  afterWhole : String
  /-- What stands before an exponent that is not negative. -/
  plus : String
  /-- The text of the value that is not a number. -/
  notANumber : String
  /-- The texts of the infinities: without sign, and with it. -/
  infinity : String × String

namespace Number

/-- A row of zeros. -/
def zeros (count : Nat) : String :=
  String.ofList (List.replicate count '0')

/-- Digits with the decimal point `point` places after their start. -/
def positionalText (style : NumberStyle) (digits : List Char) (point : Int) : String :=
  if point ≤ 0 then "0." ++ zeros (-point).toNat ++ String.ofList digits
  else if digits.length ≤ point.toNat then
    String.ofList digits ++ zeros (point.toNat - digits.length) ++ style.afterWhole
  else String.ofList (digits.take point.toNat) ++ "." ++ String.ofList (digits.drop point.toNat)

/-- Digits with the point after the first, and the power of ten that makes up for it. -/
def exponentText (style : NumberStyle) (digits : List Char) (exponent : Int) : String :=
  String.ofList (digits.take 1) ++
    (if digits.length ≤ 1 then "" else "." ++ String.ofList (digits.drop 1)) ++ "e" ++
    (if exponent < 0 then "-" else style.plus) ++ toString exponent.natAbs

/-- A decimal in a style. -/
def decimalText (style : NumberStyle) (d : Decimal) : String :=
  let digits := Nat.toDigits 10 d.digits
  let point := digits.length + d.power
  let isPositional :=
    match style.positional with
    | none => true
    | some (first, last) => first ≤ point - 1 ∧ point - 1 ≤ last
  if isPositional then positionalText style digits point
  else exponentText style digits (point - 1)

/-- A number in a style; the sign of a zero is written too. -/
def text (style : NumberStyle) : Number → String
  | .notANumber => style.notANumber
  | .infinite negative => if negative then style.infinity.2 else style.infinity.1
  | .finite negative mantissa exponent =>
    (if negative then "-" else "") ++ decimalText style (shortest style.tie mantissa exponent)

/-- What a style makes of a decimal: the double nearest to it, written. -/
def normalized (style : NumberStyle) (decimal : String) : Option String :=
  (read? decimal).map (text style)

end Number

end TemplateTree
