import RowFilter.Text.Utf8
import Mathlib.Tactic.SplitIfs

/-!
Reading undoes writing. The bytes of a text are read back as the text, so no part of them is taken
for something that is no character.
-/

set_option autoImplicit false

namespace RowFilter.Text.Utf8

/-! ### Single bytes -/

/-- Leads of two bytes. -/
theorem start_two {n : Nat} (hlow : 2 ≤ n) (hhigh : n < 32) :
    start (n + 192) = ([], some ⟨n, 1, 0x80, 0xBF⟩) := by
  have h80 : ¬ n + 192 < 0x80 := by omega
  have hC2 : ¬ n + 192 < 0xC2 := by omega
  have hE0 : n + 192 < 0xE0 := by omega
  simp [start, h80, hC2, hE0]

/-- Leads of three bytes. After the first one no needlessly long form begins, and after the one of
the surrogates no surrogate. -/
theorem start_three : ∀ n < 16, start (n + 224) =
    ([], some ⟨n, 2, if n = 0 then 0xA0 else 0x80, if n = 13 then 0x9F else 0xBF⟩) := by
  decide

/-- Leads of four bytes. -/
theorem start_four : ∀ n < 5, start (n + 240) =
    ([], some ⟨n, 3, if n = 0 then 0x90 else 0x80, if n = 4 then 0x8F else 0xBF⟩) := by
  decide

theorem decodeFrom_lead {b : UInt8} {n : Nat} {p : Pending} (hb : b.toNat = n)
    (h : start n = ([], some p)) (rest : List UInt8) :
    decodeFrom none (b :: rest) = decodeFrom (some p) rest := by
  simp [decodeFrom, step, hb, h]

/-- A byte that carries six more bits. -/
theorem decodeFrom_continuation {b : UInt8} {n bits missing least greatest : Nat}
    (hb : b.toNat = n + 128) (hleast : least ≤ n + 128) (hgreatest : n + 128 ≤ greatest)
    (hmissing : missing ≠ 1) (rest : List UInt8) :
    decodeFrom (some ⟨bits, missing, least, greatest⟩) (b :: rest) =
      decodeFrom (some ⟨bits * 64 + n, missing - 1, 0x80, 0xBF⟩) rest := by
  simp [decodeFrom, step, hb, hleast, hgreatest, hmissing]

/-- The last byte of a character. -/
theorem decodeFrom_last (c : Char) {b : UInt8} {n bits least greatest : Nat}
    (hb : b.toNat = n + 128) (hleast : least ≤ n + 128) (hgreatest : n + 128 ≤ greatest)
    (hc : bits * 64 + n = c.toNat) (rest : List UInt8) :
    decodeFrom (some ⟨bits, 1, least, greatest⟩) (b :: rest) = c :: decodeFrom none rest := by
  simp [decodeFrom, step, hb, hleast, hgreatest, hc]

/-! ### Whole characters -/

/-- A character's number is below the surrogates, or above them and in one of the planes. -/
theorem toNat_bounds (c : Char) :
    c.toNat < 0xD800 ∨ 0xDFFF < c.toNat ∧ c.toNat < 0x110000 := c.valid

/-- The bytes of one character are read as this character, whatever stands behind them. -/
theorem decodeFrom_utf8EncodeChar (c : Char) (rest : List UInt8) :
    decodeFrom none (String.utf8EncodeChar c ++ rest) = c :: decodeFrom none rest := by
  have hvalid := toNat_bounds c
  have hval : c.val.toNat = c.toNat := rfl
  have htoNat {n : Nat} (hn : n < 256) : (UInt8.ofNat n).toNat = n := UInt8.toNat_ofNat_of_lt' hn
  simp only [String.utf8EncodeChar, hval]
  split_ifs with h1 h2 h3
  · -- one byte, below 128
    have hlt : c.toNat < 128 := by omega
    simp [decodeFrom, step, htoNat (show c.toNat < 256 by omega), start, hlt]
  · -- two bytes
    simp only [List.cons_append, List.nil_append]
    rw [decodeFrom_lead (htoNat (by omega)) (start_two (by omega) (by omega)),
      decodeFrom_last c (htoNat (by omega)) (by omega) (by omega) (by omega)]
  · -- three bytes
    simp only [List.cons_append, List.nil_append]
    rw [decodeFrom_lead (htoNat (by omega)) (start_three _ (by omega)),
      decodeFrom_continuation (htoNat (by omega)) (by split_ifs <;> omega)
        (by split_ifs <;> omega) (by decide),
      decodeFrom_last c (htoNat (by omega)) (by omega) (by omega) (by omega)]
  · -- four bytes
    simp only [List.cons_append, List.nil_append]
    rw [decodeFrom_lead (htoNat (by omega)) (start_four _ (by omega)),
      decodeFrom_continuation (htoNat (by omega)) (by split_ifs <;> omega)
        (by split_ifs <;> omega) (by decide),
      decodeFrom_continuation (htoNat (by omega)) (by omega) (by omega) (by decide),
      decodeFrom_last c (htoNat (by omega)) (by omega) (by omega) (by omega)]

/-- Reading the bytes of a text gives the text. -/
theorem decode_flatMap_utf8EncodeChar (text : List Char) :
    decode (text.flatMap String.utf8EncodeChar) = text := by
  rw [decode]
  induction text with
  | nil => rfl
  | cons c text ih => rw [List.flatMap_cons, decodeFrom_utf8EncodeChar, ih]

end RowFilter.Text.Utf8
