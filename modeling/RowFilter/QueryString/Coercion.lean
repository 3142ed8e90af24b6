import RowFilter.Json.Basic

/-!
The scalar that the text of a parameter stands for. Four words stand for values that are no strings
or drop their parameter. Of all other texts only a sign, digits and a fraction make a number, and a
whole number is an integer where a signed word of 64 bits can hold it.
-/

set_option autoImplicit false

namespace RowFilter.QueryString

-- Powers are the built-in ones, whatever is imported beside this module.
attribute [local instance (high)] instPowNat

/-- The parts of a numeral: its sign, its whole digits and the digits behind its point. -/
structure Numeral where
  negative : Bool
  whole : List Char
  fraction : List Char
deriving DecidableEq, Repr

namespace Numeral

/-- A sign, which may be left out, and the text behind it. -/
def sign : List Char → Bool × List Char
  | '-' :: text => (true, text)
  | '+' :: text => (false, text)
  | text => (false, text)

/-- The numeral that a text spells: an optional sign, digits, and optionally a point with more
digits. -/
def ofText? (text : List Char) : Option Numeral :=
  let (negative, unsigned) := sign text
  match Decimal.splitDigits unsigned with
  | ([], _) => none
  | (whole, []) => some ⟨negative, whole, []⟩
  | (whole, '.' :: rest) =>
    match Decimal.splitDigits rest with
    | ([], _) => none
    | (fraction, []) => some ⟨negative, whole, fraction⟩
    | _ => none
  | _ => none

def toDecimal (n : Numeral) : Decimal := Decimal.ofDigits n.negative n.whole n.fraction 0

/-- The integer of a numeral without a fraction. -/
def toInt? (n : Numeral) : Option Int :=
  if n.fraction.isEmpty then
    let magnitude := Decimal.natOfDigits n.whole
    some (if n.negative then -(magnitude : Int) else magnitude)
  else none

/-- Whether a signed word of 64 bits holds an integer. -/
def fitsWord (n : Int) : Bool := -2 ^ (63 : Nat) ≤ n && n < 2 ^ (63 : Nat)

/-- A float that is whole and of a magnitude below `2 ^ 63` gives way to its integer. -/
def numberOfFloat (x : Binary64) : Number :=
  match x.toInt? with
  | some n => if n.natAbs < 2 ^ (63 : Nat) then .int n else .float x
  | none => .float x

/-- What the nearest float gives; nothing when the numeral is out of its range. -/
def nearest? (n : Numeral) : Option Number := (Binary64.ofDecimal? n.toDecimal).map numberOfFloat

/-- The number of a numeral: the integer as it is written if there is no fraction and a word holds
it, and otherwise what the nearest float gives. -/
def toNumber? (n : Numeral) : Option Number :=
  match n.toInt? with
  | some i => if fitsWord i then some (.int i) else n.nearest?
  | none => n.nearest?

end Numeral

/-- The number that a text spells, and otherwise the text. -/
def numberOrText (text : String) : Scalar :=
  match (Numeral.ofText? text.toList).bind Numeral.toNumber? with
  | some n => .number n
  | none => .string text

/-- The scalar of a parameter's text; nothing when the parameter is to be left out. -/
def coerce? (text : String) : Option Scalar :=
  if text = "undefined" then none
  else if text = "null" then some .null
  else if text = "true" then some (.bool true)
  else if text = "false" then some (.bool false)
  else some (numberOrText text)

end RowFilter.QueryString
