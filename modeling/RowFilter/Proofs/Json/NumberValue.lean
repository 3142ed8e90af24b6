import RowFilter.Json.Basic
import Mathlib.Data.Rat.Lemmas
import Mathlib.Algebra.Order.Field.Rat

/-!
The rational number that a number of a document denotes. A float is a mantissa times a power of two,
so it denotes a rational exactly, and being whole means to denote an integer: the integer that
`Number.toInt?` finds is the denoted one, and it finds one whenever there is one
(`Number.toInt?_eq_some_iff`).
-/

set_option autoImplicit false

namespace RowFilter

namespace Binary64

/-- The rational number of a finite float. -/
def toRat (x : Binary64) : ℚ :=
  (if x.negative then -1 else 1) * (x.mantissa * 2 ^ x.exponent)

theorem ratio_snd_pos (x : Binary64) : 0 < x.ratio.2 := Nat.pow_pos (by decide)

/-- The magnitude is the quotient of the ratio. -/
theorem mantissa_mul_eq_ratio (x : Binary64) :
    (x.mantissa * 2 ^ x.exponent : ℚ) = x.ratio.1 / x.ratio.2 := by
  unfold ratio
  rcases Int.eq_nat_or_neg x.exponent with ⟨k, hk | hk⟩
  · rw [hk]
    simp
  · rw [hk]
    simp [div_eq_mul_inv]

theorem natCast_div_eq_intCast_iff {num den : ℕ} (hden : 0 < den) {n : ℤ} :
    (num / den : ℚ) = n ↔ den ∣ num ∧ ((num / den : ℕ) : ℤ) = n := by
  have hne : (den : ℚ) ≠ 0 := Nat.cast_ne_zero.mpr hden.ne'
  rw [div_eq_iff hne]
  constructor
  · intro h
    have hint : (num : ℤ) = n * den := by exact_mod_cast h
    have hdvd : den ∣ num := Int.natCast_dvd_natCast.mp ⟨n, by rw [hint, mul_comm]⟩
    refine ⟨hdvd, ?_⟩
    rw [Int.natCast_div, hint, Int.mul_ediv_cancel _ (Int.natCast_ne_zero.mpr hden.ne')]
  · rintro ⟨⟨k, rfl⟩, h⟩
    rw [Nat.mul_div_cancel_left _ hden] at h
    rw [← h]
    push_cast
    exact mul_comm _ _

/-- A float denotes an integer exactly when it is found whole. -/
theorem toInt?_eq_some_iff {x : Binary64} {n : ℤ} : x.toInt? = some n ↔ x.toRat = n := by
  have hquotient {m : ℤ} := @natCast_div_eq_intCast_iff x.ratio.1 _ x.ratio_snd_pos m
  rw [toRat, mantissa_mul_eq_ratio]
  unfold toInt?
  cases x.negative with
  | true =>
    have hneg : (-1 * (x.ratio.1 / x.ratio.2) : ℚ) = n ↔
        (x.ratio.1 / x.ratio.2 : ℚ) = ((-n : ℤ) : ℚ) := by
      rw [neg_one_mul, neg_eq_iff_eq_neg, Int.cast_neg]
    simp only [if_true, Option.ite_none_right_eq_some, Option.some.injEq, hneg, hquotient,
      neg_eq_iff_eq_neg]
  | false =>
    simp only [Bool.false_eq_true, if_false, one_mul, Option.ite_none_right_eq_some,
      Option.some.injEq, hquotient]

end Binary64

namespace Number

/-- The rational number that a number denotes, whatever its kind. -/
def toRat : Number → ℚ
  | .int n => n
  | .float x => x.toRat

@[simp] theorem toRat_int (n : ℤ) : (Number.int n).toRat = n := rfl

theorem toInt?_eq_some_iff {a : Number} {n : ℤ} : a.toInt? = some n ↔ a.toRat = n := by
  cases a with
  | int m => simp [toInt?, toRat]
  | float x => exact Binary64.toInt?_eq_some_iff

end Number

end RowFilter
