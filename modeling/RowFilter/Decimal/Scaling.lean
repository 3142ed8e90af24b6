import RowFilter.Decimal.Binary64

/-!
Reading a decimal by scaling. Of its digits the leading ones count, as many as keep the coefficient
within a word of 64 bits. The coefficient is rounded to a float and then multiplied or divided by the
float nearest to the power of ten. Each step rounds, so the result is near the decimal but not always
the float nearest to it, and a decimal just inside the range may be found outside.
-/

set_option autoImplicit false

namespace RowFilter

-- Powers are the built-in ones, whatever is imported beside this module.
attribute [local instance (high)] instPowNat

namespace Decimal

/-- Puts digits behind a coefficient for as long as 64 bits hold it; the other digits are left. -/
def takeDigits (coefficient : Nat) : List Char → Nat × List Char
  | [] => (coefficient, [])
  | digit :: rest =>
    let longer := Nat.ofDigitChars 10 [digit] coefficient
    if longer < 2 ^ (64 : Nat) then takeDigits longer rest else (coefficient, digit :: rest)

/-- The decimal of the leading digits. Each whole digit that is left raises the exponent, and each
digit taken from behind the point lowers it. -/
def ofLeadingDigits (negative : Bool) (whole fraction : List Char) (exponent : Int) : Decimal :=
  let (head, wholeLeft) := takeDigits 0 whole
  let (coefficient, fractionLeft) := takeDigits head fraction
  ⟨negative, coefficient, exponent + wholeLeft.length - (fraction.length - fractionLeft.length)⟩

theorem takeDigits_lt {coefficient : Nat} (h : coefficient < 2 ^ (64 : Nat))
    (digits : List Char) :
    (takeDigits coefficient digits).1 < 2 ^ (64 : Nat) := by
  induction digits generalizing coefficient with
  | nil => exact h
  | cons digit rest ih =>
    simp only [takeDigits]
    split
    · exact ih ‹_›
    · exact h

/-- The coefficient of the leading digits is a word of 64 bits. -/
theorem coefficient_ofLeadingDigits_lt (negative : Bool) (whole fraction : List Char)
    (exponent : Int) :
    (ofLeadingDigits negative whole fraction exponent).coefficient < 2 ^ (64 : Nat) :=
  takeDigits_lt (takeDigits_lt (by decide) whole) fraction

end Decimal

namespace Binary64

/-- The largest power of ten in the range of floats. -/
def maxTenPower : Nat := 308

/-- The number nearest to a power of ten in the range. -/
def tenPower? (n : Nat) : Option Binary64 :=
  if n ≤ maxTenPower then ofRatio? false (10 ^ n) 1 else none

/-- The product with a power of ten. Zero stays zero; any other number is out of range when the
power is. -/
def timesTenPower? (x : Binary64) (n : Nat) : Option Binary64 :=
  if x.mantissa = 0 then some x else (tenPower? n).bind x.mul?

/-- The quotient by a power of ten. A power out of range is divided off in two steps, the largest
power first, and two largest powers leave nothing of a word. -/
def overTenPower? (x : Binary64) (n : Nat) : Option Binary64 :=
  if n ≤ maxTenPower then (tenPower? n).bind x.div?
  else if n ≤ 2 * maxTenPower then do
    let y ← (tenPower? maxTenPower).bind x.div?
    (tenPower? (n - maxTenPower)).bind y.div?
  else some (zero x.negative)

/-- The coefficient of a decimal as a float, scaled by its power of ten. -/
def ofScaled? (d : Decimal) : Option Binary64 := do
  let x ← ofRatio? d.negative d.coefficient 1
  if 0 ≤ d.exponent then x.timesTenPower? d.exponent.toNat
  else x.overTenPower? (-d.exponent).toNat

end Binary64

end RowFilter
