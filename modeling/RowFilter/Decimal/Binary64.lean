import RowFilter.Decimal.Basic

/-!
Finite binary floating-point numbers with 53-bit mantissas, as exact values, and rounding to them:
to nearest, a tie going to the even mantissa. Every step is integer arithmetic. A magnitude past the
largest finite number has no rounding, and one below half of the least rounds to zero.
-/

set_option autoImplicit false

namespace RowFilter

-- Powers are the built-in ones, whatever is imported beside this module.
attribute [local instance (high)] instPowNat

/-- The one form of each value: the mantissa has 53 bits unless the exponent is the least. -/
def CanonicalBinary64 (mantissa : Nat) (exponent : Int) : Prop :=
  mantissa < 2 ^ (53 : Nat) ∧ -1074 ≤ exponent ∧ exponent ≤ 971 ∧
    (2 ^ (52 : Nat) ≤ mantissa ∨ exponent = -1074)

instance (mantissa : Nat) (exponent : Int) : Decidable (CanonicalBinary64 mantissa exponent) :=
  inferInstanceAs (Decidable (_ ∧ _))

/-- The finite number `±mantissa · 2 ^ exponent`, in its one canonical form. -/
structure Binary64 where
  negative : Bool
  mantissa : Nat
  exponent : Int
  canonical : CanonicalBinary64 mantissa exponent
deriving DecidableEq

namespace Binary64

/-- The number with the given parts, if they are a canonical form. -/
def ofParts? (negative : Bool) (mantissa : Nat) (exponent : Int) : Option Binary64 :=
  if h : CanonicalBinary64 mantissa exponent then some ⟨negative, mantissa, exponent, h⟩ else none

def zero (negative : Bool) : Binary64 := ⟨negative, 0, -1074, by decide⟩

/-- The magnitude as a quotient of natural numbers. -/
def ratio (x : Binary64) : Nat × Nat :=
  (x.mantissa * 2 ^ x.exponent.toNat, 2 ^ (-x.exponent).toNat)

/-- The natural number nearest to `num / den`, the even one of two at equal distance. -/
def roundHalfEven (num den : Nat) : Nat :=
  let quotient := num / den
  let remainder := num % den
  if 2 * remainder < den then quotient
  else if den < 2 * remainder then quotient + 1
  else quotient + quotient % 2

/-- The rounded quotient is off by at most one half. -/
theorem roundHalfEven_near {num den : Nat} (hden : 0 < den) :
    2 * num ≤ 2 * (roundHalfEven num den * den) + den ∧
      2 * (roundHalfEven num den * den) ≤ 2 * num + den := by
  have hsum := Nat.div_add_mod' num den
  have hlt := Nat.mod_lt num hden
  have hsucc : (num / den + 1) * den = num / den * den + den := Nat.succ_mul _ _
  unfold roundHalfEven
  dsimp only
  split
  · omega
  · split
    · omega
    · rcases Nat.mod_two_eq_zero_or_one (num / den) with hq | hq
      · rw [hq, Nat.add_zero]
        omega
      · rw [hq]
        omega

/-- The quotient `num / den` counted in units of `2 ^ exponent`. -/
def inUnits (num den : Nat) (exponent : Int) : Nat × Nat :=
  (num * 2 ^ (-exponent).toNat, den * 2 ^ exponent.toNat)

/-- The exponent at which the whole part of a positive quotient has 53 bits, or the least one. -/
def unitExponent (num den : Nat) : Int :=
  let low := max (-1074) ((num.log2 : Int) - den.log2 - 53)
  let scaled := inUnits num den low
  if 2 ^ (53 : Nat) ≤ scaled.1 / scaled.2 then low + 1 else low

/-- The nearest number to the quotient `num / den` of a positive `den`, unless it is out of range.
Rounding up to the next power of two raises the exponent. -/
def ofRatio? (negative : Bool) (num den : Nat) : Option Binary64 :=
  if num = 0 then some (zero negative)
  else
    let exponent := unitExponent num den
    let scaled := inUnits num den exponent
    let mantissa := roundHalfEven scaled.1 scaled.2
    if mantissa = 2 ^ (53 : Nat) then ofParts? negative (2 ^ (52 : Nat)) (exponent + 1)
    else ofParts? negative mantissa exponent

/-- The nearest number to the exact product, unless it is out of range. -/
def mul? (x y : Binary64) : Option Binary64 :=
  ofRatio? (x.negative != y.negative) (x.ratio.1 * y.ratio.1) (x.ratio.2 * y.ratio.2)

/-- The nearest number to the exact quotient, unless it is out of range or there is none. -/
def div? (x y : Binary64) : Option Binary64 :=
  if y.mantissa = 0 then none
  else ofRatio? (x.negative != y.negative) (x.ratio.1 * y.ratio.2) (x.ratio.2 * y.ratio.1)

/-- The nearest number to a decimal value, unless it is out of range. Two cases are settled before
any power is formed: from `10 ^ 401` on everything is out of range, and below `2 ^ (-1076)`
everything is zero. -/
def ofDecimal? (d : Decimal) : Option Binary64 :=
  if d.coefficient = 0 then some (zero d.negative)
  else if 400 < d.exponent then none
  else if 0 ≤ d.exponent then ofRatio? d.negative (d.coefficient * 10 ^ d.exponent.toNat) 1
  else
    let places := (-d.exponent).toNat
    if d.coefficient.log2 + 1077 < 3 * places then some (zero d.negative)
    else ofRatio? d.negative d.coefficient (10 ^ places)

/-- The integer that the number equals, if it is whole. -/
def toInt? (x : Binary64) : Option Int :=
  let (num, den) := x.ratio
  if den ∣ num then some (if x.negative then -((num / den : Nat) : Int) else (num / den : Nat))
  else none

end Binary64

end RowFilter
