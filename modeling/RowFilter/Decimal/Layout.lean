import RowFilter.Decimal.Basic

/-!
Writing a decimal with all its significant digits, either with a point in its place or with one
digit before the point and a power of ten. Which of the two applies depends on the power of ten of
the leading digit, and the bounds are a parameter.
-/

set_option autoImplicit false

namespace RowFilter.Decimal

/-- The powers of ten of the leading digit that are written with the point in its place:
`least ≤ exponent < tooLarge`. -/
structure Layout where
  least : Int
  tooLarge : Int
deriving Repr

/-- The digits without the zeros at the end. -/
def significantDigits (digits : List Char) : List Char :=
  (digits.reverse.dropWhile (· = '0')).reverse

/-- A number below one: zeros between the point and the first digit. -/
def textBelowOne (digits : List Char) (exponent : Int) : List Char :=
  '0' :: '.' :: List.replicate (-exponent - 1).toNat '0' ++ digits

/-- A number from one on: digits up to the point, filled with zeros, and at least one behind it. -/
def textFromOne (digits : List Char) (exponent : Int) : List Char :=
  let places := exponent.toNat + 1
  let fraction := digits.drop places
  digits.take places ++ List.replicate (places - digits.length) '0' ++
    '.' :: (if fraction.isEmpty then ['0'] else fraction)

/-- One digit, the others behind a point if there are any, and a signed power of ten. -/
def textScientific (digits : List Char) (exponent : Int) : List Char :=
  let fraction := digits.drop 1
  digits.take 1 ++ (if fraction.isEmpty then [] else '.' :: fraction) ++
    'e' :: (if exponent < 0 then '-' else '+') :: Nat.toDigits 10 exponent.natAbs

/-- The text of a decimal under a layout. Zero is `0.0`. -/
def text (layout : Layout) (d : Decimal) : String :=
  let digits := Nat.toDigits 10 d.coefficient
  let exponent := d.exponent + digits.length - 1
  let significant := significantDigits digits
  let unsigned :=
    if d.coefficient = 0 then ['0', '.', '0']
    else if layout.least ≤ exponent ∧ exponent < layout.tooLarge then
      if exponent < 0 then textBelowOne significant exponent else textFromOne significant exponent
    else textScientific significant exponent
  String.ofList (if d.negative then '-' :: unsigned else unsigned)

end RowFilter.Decimal
