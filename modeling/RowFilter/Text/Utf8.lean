/-!
Reading bytes as UTF-8 where some of them may be no UTF-8. The longest start of a character that
cannot go on is replaced by one replacement character, and reading goes on with the byte that did
not fit.
-/

set_option autoImplicit false

namespace RowFilter.Text.Utf8

/-- A character whose first bytes have been read: the bits so far, how many bytes are still to come,
and the bounds of the next one. -/
structure Pending where
  bits : Nat
  missing : Nat
  least : Nat
  greatest : Nat
deriving DecidableEq, Repr

/-- Replaces what can no longer be a character. -/
def replacement : Char := Char.ofNat 0xFFFD

/-- A byte that should start a character: what is read at once, and what is then pending. Four leads
narrow the byte behind them: two against needlessly long forms, one against surrogates, one against
values past the last plane. -/
def start (byte : Nat) : List Char × Option Pending :=
  if byte < 0x80 then ([Char.ofNat byte], none)
  else if byte < 0xC2 then ([replacement], none)
  else if byte < 0xE0 then ([], some ⟨byte - 0xC0, 1, 0x80, 0xBF⟩)
  else if byte = 0xE0 then ([], some ⟨0, 2, 0xA0, 0xBF⟩)
  else if byte = 0xED then ([], some ⟨0xD, 2, 0x80, 0x9F⟩)
  else if byte < 0xF0 then ([], some ⟨byte - 0xE0, 2, 0x80, 0xBF⟩)
  else if byte = 0xF0 then ([], some ⟨0, 3, 0x90, 0xBF⟩)
  else if byte < 0xF4 then ([], some ⟨byte - 0xF0, 3, 0x80, 0xBF⟩)
  else if byte = 0xF4 then ([], some ⟨4, 3, 0x80, 0x8F⟩)
  else ([replacement], none)

/-- One byte: the characters that are thereby read, and what is then pending. -/
def step (pending : Option Pending) (byte : Nat) : List Char × Option Pending :=
  match pending with
  | none => start byte
  | some p =>
    if p.least ≤ byte ∧ byte ≤ p.greatest then
      let bits := p.bits * 64 + (byte - 0x80)
      if p.missing = 1 then ([Char.ofNat bits], none)
      else ([], some ⟨bits, p.missing - 1, 0x80, 0xBF⟩)
    else (replacement :: (start byte).1, (start byte).2)

/-- The characters of the remaining bytes; a character pending at the end is replaced. -/
def decodeFrom (pending : Option Pending) : List UInt8 → List Char
  | [] => if pending.isSome then [replacement] else []
  | b :: rest =>
    let (read, pending) := step pending b.toNat
    read ++ decodeFrom pending rest

/-- The characters of a byte sequence, with a replacement for each part that is no UTF-8. -/
def decode (bytes : List UInt8) : List Char := decodeFrom none bytes

end RowFilter.Text.Utf8
