import RowFilter.Decimal.Layout
import RowFilter.Decimal.Shortest

/-!
The numbers of a JSON document: integers, and binary floating-point numbers for what is written with
a point or an exponent or is too large. The kind is part of the value, so `1` and `1.0` are two
numbers, but they agree on being whole and on which integer they are.
-/

set_option autoImplicit false

namespace RowFilter

-- Powers are the built-in ones, whatever is imported beside this module.
attribute [local instance (high)] instPowNat

inductive Number where
  | int (n : Int)
  | float (x : Binary64)
deriving DecidableEq

namespace Number

/-- The integer that the number equals, if it is whole. -/
def toInt? : Number → Option Int
  | .int n => some n
  | .float x => x.toInt?

/-- Floats are written with a point in its place from `0.00001` up to sixteen whole digits. -/
def floatLayout : Decimal.Layout := ⟨-5, 16⟩

/-- Integers in decimal; a float by the fewest digits that read back to it. -/
def text : Number → String
  | .int n => toString n
  | .float x => x.shortest.text floatLayout

/-- The integer of a sign and a magnitude where 64 bits hold it, with or without a sign. A negative
zero is no integer. -/
def wordInteger? (negative : Bool) (magnitude : Nat) : Option Number :=
  if negative then
    if 0 < magnitude ∧ magnitude ≤ 2 ^ (63 : Nat) then some (.int (-magnitude)) else none
  else
    if magnitude < 2 ^ (64 : Nat) then some (.int magnitude) else none

end Number

end RowFilter
