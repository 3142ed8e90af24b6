import RowFilter.Decimal.Scaling
import RowFilter.Json.Basic
import RowFilter.Json.Quoted

/-!
Reading JSON text. The grammar is taken strictly: one value, blanks around tokens, nothing else. A
repeated member name keeps its first place and takes its last value. At most 127 containers may
stand inside one another, and a number past the range of floats is refused. A float is read by
scaling its leading digits, so its last bit may differ from the nearest float's.
-/

set_option autoImplicit false

namespace RowFilter.Json.Reader

def skipBlanks (text : List Char) : List Char :=
  text.dropWhile fun c ↦ c = ' ' || c = '\t' || c = '\n' || c = '\r'

/-- The text behind a word that must stand at the start. -/
def expect? : List Char → List Char → Option (List Char)
  | [], text => some text
  | c :: word, d :: text => if c = d then expect? word text else none
  | _ :: _, [] => none

/-- The whole part: digits without a needless leading zero. -/
def whole? (text : List Char) : Option (List Char × List Char) :=
  match Decimal.splitDigits text with
  | ([], _) => none
  | ('0' :: _ :: _, _) => none
  | parts => some parts

/-- A point and at least one digit, or nothing. -/
def fraction? : List Char → Option (List Char × List Char)
  | '.' :: text =>
    match Decimal.splitDigits text with
    | ([], _) => none
    | parts => some parts
  | text => some ([], text)

/-- The sign of an exponent and what follows it; a plus sign may be left out. -/
def exponentSign : List Char → Bool × List Char
  | '-' :: text => (true, text)
  | '+' :: text => (false, text)
  | text => (false, text)

/-- A power of ten with at least one digit, or nothing. -/
def exponent? : List Char → Option (Option Int × List Char)
  | [] => some (none, [])
  | c :: text =>
    if c = 'e' || c = 'E' then
      let (negative, text) := exponentSign text
      match Decimal.splitDigits text with
      | ([], _) => none
      | (digits, text) =>
        let n : Int := Decimal.natOfDigits digits
        some (some (if negative then -n else n), text)
    else some (none, c :: text)

/-- The integer of a numeral without point and exponent. -/
def integer? (negative : Bool) (whole fraction : List Char) (exponent : Option Int) :
    Option Number :=
  if fraction.isEmpty && exponent.isNone then
    Number.wordInteger? negative (Decimal.natOfDigits whole)
  else none

/-- The float of a numeral: its leading digits, scaled. -/
def float? (negative : Bool) (whole fraction : List Char) (exponent : Option Int) :
    Option Number :=
  (Binary64.ofScaled? (Decimal.ofLeadingDigits negative whole fraction (exponent.getD 0))).map .float

/-- An unsigned number behind its sign: an integer if it can be one, and a float otherwise. -/
def unsigned? (negative : Bool) (text : List Char) : Option (Number × List Char) := do
  let (whole, text) ← whole? text
  let (fraction, text) ← fraction? text
  let (exponent, text) ← exponent? text
  let number ← match integer? negative whole fraction exponent with
    | some n => some n
    | none => float? negative whole fraction exponent
  return (number, text)

def number? : List Char → Option (Number × List Char)
  | '-' :: text => unsigned? true text
  | text => unsigned? false text

/-- A scalar, told by its first character. -/
def scalar? (text : List Char) : Option (Scalar × List Char) :=
  match text with
  | '"' :: rest => (Quoted.decode? rest).map fun (s, rest) ↦ (.string s, rest)
  | 'n' :: _ => (expect? "null".toList text).map (.null, ·)
  | 't' :: _ => (expect? "true".toList text).map (.bool true, ·)
  | 'f' :: _ => (expect? "false".toList text).map (.bool false, ·)
  | _ => (number? text).map fun (n, rest) ↦ (.number n, rest)

/-- The items of an array up to its closing bracket; there is at least one. Each item takes at least
one character, so `bound` need not exceed the length of the text. -/
def items? (item? : List Char → Option (Json × List Char)) :
    Nat → List Char → Option (List Json × List Char)
  | 0, _ => none
  | bound + 1, text => do
    let (item, text) ← item? text
    match skipBlanks text with
    | ',' :: text => do
      let (items, text) ← items? item? bound text
      return (item :: items, text)
    | ']' :: text => return ([item], text)
    | _ => none

/-- A member name and the colon behind it. -/
def name? (text : List Char) : Option (String × List Char) :=
  match skipBlanks text with
  | '"' :: text => do
    let (name, text) ← Quoted.decode? text
    match skipBlanks text with
    | ':' :: text => return (name, text)
    | _ => none
  | _ => none

/-- The members of an object up to its closing brace; there is at least one. -/
def members? (item? : List Char → Option (Json × List Char)) :
    Nat → List Char → Option (List (String × Json) × List Char)
  | 0, _ => none
  | bound + 1, text => do
    let (name, text) ← name? text
    let (value, text) ← item? text
    match skipBlanks text with
    | ',' :: text => do
      let (members, text) ← members? item? bound text
      return ((name, value) :: members, text)
    | '}' :: text => return ([(name, value)], text)
    | _ => none

/-- An array behind its opening bracket. -/
def array? (item? : List Char → Option (Json × List Char)) (bound : Nat) (text : List Char) :
    Option (Json × List Char) :=
  match skipBlanks text with
  | ']' :: text => some (.array [], text)
  | text => (items? item? bound text).map fun (items, text) ↦ (.array items, text)

/-- An object behind its opening brace. -/
def object? (item? : List Char → Option (Json × List Char)) (bound : Nat) (text : List Char) :
    Option (Json × List Char) :=
  match skipBlanks text with
  | '}' :: text => some (.object [], text)
  | text => (members? item? bound text).map fun (members, text) ↦
      (.object (Assoc.ofMembers members), text)

/-- A value with at most `depth` containers inside one another, and the text behind it. -/
def value? (bound : Nat) : Nat → List Char → Option (Json × List Char)
  | 0, text => (scalar? (skipBlanks text)).map fun (s, text) ↦ (.scalar s, text)
  | depth + 1, text =>
    match skipBlanks text with
    | '[' :: text => array? (value? bound depth) bound text
    | '{' :: text => object? (value? bound depth) bound text
    | text => (scalar? text).map fun (s, text) ↦ (.scalar s, text)

/-- How many containers may stand inside one another. -/
def maxDepth : Nat := 127

end Reader

/-- The value of a JSON text, which holds nothing else. -/
def ofText? (text : String) : Option Json :=
  let text := text.toList
  match Reader.value? text.length Reader.maxDepth text with
  | some (value, rest) => if (Reader.skipBlanks rest).isEmpty then some value else none
  | none => none

end RowFilter.Json
