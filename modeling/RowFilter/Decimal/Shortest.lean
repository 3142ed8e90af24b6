import RowFilter.Decimal.Binary64

/-!
The shortest decimal that reads back. On the grid of `n` significant digits only the two neighbours
of a number can be the nearest decimals to it, so the search tries both on the grids of 1, 2, … 17
digits and takes the first that rounds to the number again, the nearer of two first.
-/

set_option autoImplicit false

namespace RowFilter.Binary64

-- Powers are the built-in ones, whatever is imported beside this module.
attribute [local instance (high)] instPowNat

/-- How many decimal digits a natural number has; zero has one. -/
def digitCount (n : Nat) : Nat := (Nat.toDigits 10 n).length

/-- The power of ten of the leading decimal digit. -/
def decimalExponent (x : Binary64) : Int :=
  let (num, den) := x.ratio
  if den ≤ num then (digitCount (num / den) : Int) - 1
  else -(digitCount ((den - 1) / num) : Int)

/-- The multiples of `10 ^ exponent` just below and just above, the nearer one first and the even
one first when both are equally near. -/
def neighbours (x : Binary64) (exponent : Int) : List Decimal :=
  let (num, den) := x.ratio
  let scaled := num * 10 ^ (-exponent).toNat
  let unit := den * 10 ^ exponent.toNat
  let below := scaled / unit
  let remainder := scaled % unit
  let lower : Decimal := ⟨x.negative, below, exponent⟩
  let upper : Decimal := ⟨x.negative, below + 1, exponent⟩
  if 2 * remainder < unit ∨ (2 * remainder = unit ∧ below % 2 = 0) then [lower, upper]
  else [upper, lower]

/-- All decimal digits of the number. -/
def exactDecimal (x : Binary64) : Decimal :=
  if 0 ≤ x.exponent then ⟨x.negative, x.mantissa * 2 ^ x.exponent.toNat, 0⟩
  else ⟨x.negative, x.mantissa * 5 ^ (-x.exponent).toNat, x.exponent⟩

/-- The decimal with the fewest digits that rounds to the number, and the nearest of those. -/
def shortest (x : Binary64) : Decimal :=
  let leading := x.decimalExponent
  let reads (d : Decimal) : Bool := ofDecimal? d = some x
  ((List.range 17).findSome? fun (n : Nat) ↦ (x.neighbours (leading - n)).find? reads).getD x.exactDecimal

end RowFilter.Binary64
