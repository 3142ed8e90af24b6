import RowFilter.Text.Hex
import RowFilter.Text.Utf8

/-!
The pairs of a query string. Pieces stand between ampersands, and empty ones do not count. A piece
is a name and a value around its first equals sign. In both, a plus sign is a space and a percent
sign with two hexadecimal digits is a byte; the bytes are then read as UTF-8.
-/

set_option autoImplicit false

namespace RowFilter.QueryString

/-- The parts of a text between the occurrences of a character. -/
def splitAll (separator : Char) : List Char → List (List Char)
  | [] => [[]]
  | c :: rest =>
    if c = separator then [] :: splitAll separator rest
    else match splitAll separator rest with
      | [] => [[c]]
      | part :: parts => (c :: part) :: parts

theorem splitAll_append {separator : Char} {part : List Char} (h : separator ∉ part)
    (rest : List Char) :
    splitAll separator (part ++ separator :: rest) = part :: splitAll separator rest := by
  induction part with
  | nil => simp [splitAll]
  | cons c part ih =>
    have hc : c ≠ separator := fun hc ↦ h (by simp [hc])
    simp [splitAll, hc, ih fun hm ↦ h (List.mem_cons_of_mem _ hm)]

theorem splitAll_of_not_mem {separator : Char} {text : List Char} (h : separator ∉ text) :
    splitAll separator text = [text] := by
  induction text with
  | nil => rfl
  | cons c text ih =>
    have hc : c ≠ separator := fun hc ↦ h (by simp [hc])
    simp [splitAll, hc, ih fun hm ↦ h (List.mem_cons_of_mem _ hm)]

/-- The bytes that a part of a piece stands for. A percent sign without two digits is itself. -/
def bytes : List Char → List UInt8
  | [] => []
  | '+' :: rest => 0x20 :: bytes rest
  | '%' :: high :: low :: rest =>
    match Text.hexValue? high, Text.hexValue? low with
    | some h, some l => UInt8.ofNat (16 * h + l) :: bytes rest
    | _, _ => 0x25 :: bytes (high :: low :: rest)
  | c :: rest => String.utf8EncodeChar c ++ bytes rest

def component (part : List Char) : String := String.ofList (Text.Utf8.decode (bytes part))

/-- The name and the value of a piece; without an equals sign the value is empty. -/
def pairOf (piece : List Char) : String × String :=
  (component (piece.takeWhile (· != '=')), component ((piece.dropWhile (· != '=')).drop 1))

/-- The pieces of a query string, of which one question mark at the start is no part. -/
def pieces (query : String) : List (List Char) :=
  let text := match query.toList with
    | '?' :: rest => rest
    | text => text
  (splitAll '&' text).filter fun piece ↦ !piece.isEmpty

end RowFilter.QueryString
