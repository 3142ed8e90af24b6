import RowFilter.Text.Hex

/-!
JSON strings. Writing escapes the quote, the backslash and the control characters and leaves all
other characters alone. Reading takes every escape of the grammar; a character outside the basic
plane may be written as two escaped halves, and a half by itself is refused.
-/

set_option autoImplicit false

namespace RowFilter.Quoted

open Text (hexDigit hexValue?)

/-- The written form of one character. -/
def escape (c : Char) : List Char :=
  if c = '"' then ['\\', '"']
  else if c = '\\' then ['\\', '\\']
  else if 0x20 ≤ c.toNat then [c]
  else if c.toNat = 0x08 then ['\\', 'b']
  else if c = '\t' then ['\\', 't']
  else if c = '\n' then ['\\', 'n']
  else if c.toNat = 0x0C then ['\\', 'f']
  else if c = '\r' then ['\\', 'r']
  else ['\\', 'u', '0', '0', hexDigit (c.toNat / 16), hexDigit (c.toNat % 16)]

/-- A text between quotes. -/
def encode (s : String) : String :=
  String.ofList ('"' :: s.toList.flatMap escape ++ ['"'])

/-- What stands at one place of a written string: a character, or an escaped 16-bit unit. -/
inductive Element where
  | char (c : Char)
  | unit (n : Nat)
deriving DecidableEq, Repr

/-- The unit written by four hexadecimal digits. -/
def unit? (a b c d : Char) : Option Nat := do
  let a ← hexValue? a
  let b ← hexValue? b
  let c ← hexValue? c
  let d ← hexValue? d
  return ((a * 16 + b) * 16 + c) * 16 + d

/-- The character named by the letter of a short escape. -/
def shortEscape? : Char → Option Char
  | '"' => some '"'
  | '\\' => some '\\'
  | '/' => some '/'
  | 'b' => some (Char.ofNat 0x08)
  | 'f' => some (Char.ofNat 0x0C)
  | 'n' => some '\n'
  | 'r' => some '\r'
  | 't' => some '\t'
  | _ => none

/-- The elements up to the closing quote, and the text behind it. -/
def elements? : List Char → Option (List Element × List Char)
  | [] => none
  | '"' :: rest => some ([], rest)
  | '\\' :: 'u' :: a :: b :: c :: d :: rest => do
    let n ← unit? a b c d
    let (es, rest) ← elements? rest
    return (.unit n :: es, rest)
  | '\\' :: letter :: rest => do
    let c ← shortEscape? letter
    let (es, rest) ← elements? rest
    return (.char c :: es, rest)
  | c :: rest =>
    if c.toNat < 0x20 then none
    else do
      let (es, rest) ← elements? rest
      return (.char c :: es, rest)

def isHighHalf (n : Nat) : Bool := 0xD800 ≤ n && n < 0xDC00

def isLowHalf (n : Nat) : Bool := 0xDC00 ≤ n && n < 0xE000

/-- The characters that the elements denote; a high half needs a low half right behind it. -/
def characters? : List Element → Option (List Char)
  | [] => some []
  | .char c :: rest => (characters? rest).map (c :: ·)
  | .unit high :: .unit low :: rest =>
    if isHighHalf high then
      if isLowHalf low then
        (characters? rest).map (Char.ofNat (0x10000 + (high - 0xD800) * 0x400 + (low - 0xDC00)) :: ·)
      else none
    else if isLowHalf high then none
    else (characters? (.unit low :: rest)).map (Char.ofNat high :: ·)
  | .unit n :: rest =>
    if isHighHalf n || isLowHalf n then none
    else (characters? rest).map (Char.ofNat n :: ·)

/-- Reads a string whose opening quote has been read, and returns the text behind it. -/
def decode? (text : List Char) : Option (String × List Char) := do
  let (es, rest) ← elements? text
  let cs ← characters? es
  return (String.ofList cs, rest)

end RowFilter.Quoted
