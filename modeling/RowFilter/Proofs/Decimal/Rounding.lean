import Mathlib.Algebra.Order.Field.Basic
import Mathlib.Tactic.FieldSimp
import Mathlib.Tactic.Linarith
import Mathlib.Tactic.NormNum
import Mathlib.Tactic.Ring
import RowFilter.Proofs.Json.NumberValue

/-!
Rounding a decimal gives the float nearest to its value, and of two that are equally near the one
with the even mantissa; there is none exactly when the magnitude reaches the midpoint between the
largest finite number and the next one that an unbounded exponent would allow. A positive quotient
is counted in units of a power of two in which it has 53 bits before the point, and its nearest
number of units is taken (`Rounds`). Every float is a whole number of these units or smaller than
any quotient counted in them, so no float comes nearer (`Rounds.near_of_onGrid`). A number that is a
float is therefore rounded to itself, as every integer of up to 53 bits is.
-/

set_option autoImplicit false

namespace RowFilter

namespace Binary64

/-! ### What rounding has to give -/

/-- No float is nearer to the number, and where another one is as near, this one is even. -/
structure Nearest (q : ℚ) (x : Binary64) : Prop where
  near : ∀ y : Binary64, |x.toRat - q| ≤ |y.toRat - q|
  even : ∀ y : Binary64, |y.toRat - q| = |x.toRat - q| → y.toRat ≠ x.toRat → Even x.mantissa

/-- The largest finite number and half a unit in its last place. -/
def overflowThreshold : ℚ := (2 ^ 53 - 1) * 2 ^ 971 + 2 ^ 970

/-- A number that rounds to no finite float. -/
def Overflows (q : ℚ) : Prop := overflowThreshold ≤ |q|

/-- The values of floats in all their forms: an integer of at most 53 bits, counted in units of a
power of two that is not below the least. -/
def OnGrid (r : ℚ) : Prop := ∃ k e : ℤ, |k| < 2 ^ 53 ∧ -1074 ≤ e ∧ r = k * 2 ^ e

theorem OnGrid.neg {r : ℚ} (h : OnGrid r) : OnGrid (-r) := by
  obtain ⟨k, e, hk, he, rfl⟩ := h
  exact ⟨-k, e, by rwa [abs_neg], he, by push_cast; ring⟩

theorem onGrid_toRat (x : Binary64) : OnGrid x.toRat := by
  obtain ⟨hmantissa, hleast, -, -⟩ := x.canonical
  have hpositive : OnGrid (x.mantissa * 2 ^ x.exponent) := by
    refine ⟨x.mantissa, x.exponent, ?_, hleast, by push_cast; rfl⟩
    rw [Nat.abs_cast]
    exact_mod_cast hmantissa
  rw [toRat]
  split
  · rw [neg_one_mul]
    exact hpositive.neg
  · rw [one_mul]
    exact hpositive

/-! ### A quotient in units -/

/-- The whole number of units `m` is nearest to `q`, where the unit `2 ^ e` leaves `q` at most 53
bits before the point, and 53 bits unless the unit is the least one. -/
structure Rounds (q : ℚ) (m : ℕ) (e : ℤ) : Prop where
  least : -1074 ≤ e
  below : q < 2 ^ 53 * 2 ^ e
  above : 2 ^ 52 * 2 ^ e ≤ q ∨ e = -1074
  near : 2 * |m * 2 ^ e - q| ≤ 2 ^ e
  even : 2 * |m * 2 ^ e - q| = 2 ^ e → Even m

namespace Rounds

variable {q r : ℚ} {m : ℕ} {e : ℤ}

/-- Any other whole number of units is a unit or more away from this one. -/
theorem le_add_of_ne (q : ℚ) (e : ℤ) {k : ℤ} (hk : k ≠ m) :
    2 ^ e ≤ |k * 2 ^ e - q| + |m * 2 ^ e - q| := by
  have hunit : (0 : ℚ) < 2 ^ e := zpow_pos (by norm_num) e
  have hapart : (1 : ℚ) ≤ |(k : ℚ) - m| := by
    have hone : 1 ≤ |k - (m : ℤ)| := Int.one_le_abs (sub_ne_zero.mpr hk)
    exact_mod_cast hone
  calc (2 : ℚ) ^ e = 1 * 2 ^ e := (one_mul _).symm
    _ ≤ |(k : ℚ) - m| * 2 ^ e := mul_le_mul_of_nonneg_right hapart hunit.le
    _ = |(k * 2 ^ e - q) - (m * 2 ^ e - q)| := by
        rw [sub_sub_sub_cancel_right, ← sub_mul, abs_mul, abs_of_pos hunit]
    _ ≤ |k * 2 ^ e - q| + |m * 2 ^ e - q| := abs_sub _ _

theorem near_of_units (h : Rounds q m e) (k : ℤ) : |m * 2 ^ e - q| ≤ |k * 2 ^ e - q| := by
  by_cases hk : k = m
  · rw [hk, Int.cast_natCast]
  · have hapart := le_add_of_ne q e hk
    have hnear := h.near
    linarith

/-- A value of the grid is a whole number of units, or below the least quotient of 53 bits. -/
theorem units_or_lt (hr : OnGrid r) (e : ℤ) :
    (∃ k : ℤ, r = k * 2 ^ e) ∨ -1074 < e ∧ r < 2 ^ 52 * 2 ^ e := by
  obtain ⟨k, d, hk, hd, rfl⟩ := hr
  rcases le_or_gt e d with hle | hlt
  · obtain ⟨n, rfl⟩ := Int.le.dest hle
    refine .inl ⟨k * 2 ^ n, ?_⟩
    rw [zpow_add₀ (by norm_num), zpow_natCast]
    push_cast
    ring
  · have hunit : (0 : ℚ) < 2 ^ d := zpow_pos (by norm_num) d
    have hbound : (k : ℚ) < 2 ^ 53 := by exact_mod_cast (abs_lt.mp hk).2
    refine .inr ⟨by omega, ?_⟩
    calc (k : ℚ) * 2 ^ d < 2 ^ 53 * 2 ^ d := mul_lt_mul_of_pos_right hbound hunit
      _ = 2 ^ 52 * 2 ^ (d + 1) := by rw [zpow_add_one₀ (by norm_num)]; ring
      _ ≤ 2 ^ 52 * 2 ^ e :=
          mul_le_mul_of_nonneg_left (zpow_le_zpow_right₀ (by norm_num) (by omega)) (by norm_num)

/-- Below the least quotient of 53 bits every value is further away. -/
theorem lt_of_lt_above (h : Rounds q m e) (he : -1074 < e) (hr : r < 2 ^ 52 * 2 ^ e) :
    |m * 2 ^ e - q| < |r - q| := by
  have habove : 2 ^ 52 * 2 ^ e ≤ q := h.above.resolve_right he.ne'
  have hpower : |m * 2 ^ e - q| ≤ |2 ^ 52 * 2 ^ e - q| := by
    have hunits := h.near_of_units (2 ^ 52)
    rwa [Int.cast_pow, Int.cast_ofNat] at hunits
  rw [abs_sub_comm _ q, abs_sub_comm _ q, abs_of_nonneg (sub_nonneg.mpr habove)] at hpower
  rw [abs_sub_comm _ q, abs_sub_comm _ q, abs_of_nonneg (sub_nonneg.mpr (hr.le.trans habove))]
  exact hpower.trans_lt (sub_lt_sub_left hr q)

/-- No value of the grid is nearer than the whole number of units. -/
theorem near_of_onGrid (h : Rounds q m e) (hr : OnGrid r) : |m * 2 ^ e - q| ≤ |r - q| := by
  rcases units_or_lt hr e with ⟨k, rfl⟩ | ⟨he, hlt⟩
  · exact h.near_of_units k
  · exact (h.lt_of_lt_above he hlt).le

/-- If another value of the grid is as near, the quotient stands in the middle between two whole
numbers of units. -/
theorem even_of_onGrid (h : Rounds q m e) (hr : OnGrid r) (heq : |r - q| = |m * 2 ^ e - q|)
    (hne : r ≠ m * 2 ^ e) : Even m := by
  rcases units_or_lt hr e with ⟨k, rfl⟩ | ⟨he, hlt⟩
  · have hk : k ≠ m := by
      rintro rfl
      exact hne (by rw [Int.cast_natCast])
    have hapart := le_add_of_ne q e hk
    have hnear := h.near
    exact h.even (by linarith)
  · exact absurd heq (h.lt_of_lt_above he hlt).ne'

end Rounds

/-! ### The units that are chosen -/

/-- The quotient in units of `2 ^ e`. -/
theorem inUnits_mul (num den : ℕ) (e : ℤ) :
    ((inUnits num den e).1 / (inUnits num den e).2 : ℚ) * 2 ^ e = num / den := by
  unfold inUnits
  rcases Int.eq_nat_or_neg e with ⟨k, rfl | rfl⟩
  · simp [div_mul_eq_mul_div, mul_div_mul_right]
  · simp [mul_div_right_comm]

theorem inUnits_snd_pos (num : ℕ) {den : ℕ} (hden : 0 < den) (e : ℤ) :
    0 < (inUnits num den e).2 := Nat.mul_pos hden (Nat.pow_pos (by decide))

section Units

variable {num den : ℕ}

/-- A quotient lies within a factor of two of the power that the lengths of its terms give. -/
theorem zpow_lt_div (hnum : 0 < num) (hden : 0 < den) :
    (2 : ℚ) ^ ((num.log2 : ℤ) - den.log2 - 1) < num / den := by
  have hlow : (2 : ℚ) ^ num.log2 ≤ num := by exact_mod_cast Nat.log2_self_le hnum.ne'
  have hhigh : (den : ℚ) < 2 ^ (den.log2 + 1) := by exact_mod_cast Nat.lt_log2_self
  have hpower : (2 : ℚ) ^ ((num.log2 : ℤ) - den.log2 - 1) * 2 ^ (den.log2 + 1) =
      2 ^ num.log2 := by
    rw [← zpow_natCast, ← zpow_natCast, ← zpow_add₀ (by norm_num)]
    congr 1
    omega
  rw [lt_div_iff₀ (by exact_mod_cast hden)]
  calc (2 : ℚ) ^ ((num.log2 : ℤ) - den.log2 - 1) * den
      < 2 ^ ((num.log2 : ℤ) - den.log2 - 1) * 2 ^ (den.log2 + 1) :=
        mul_lt_mul_of_pos_left hhigh (zpow_pos (by norm_num) _)
    _ = 2 ^ num.log2 := hpower
    _ ≤ num := hlow

theorem div_lt_zpow (hden : 0 < den) :
    (num / den : ℚ) < 2 ^ ((num.log2 : ℤ) - den.log2 + 1) := by
  have hlow : (2 : ℚ) ^ den.log2 ≤ den := by exact_mod_cast Nat.log2_self_le hden.ne'
  have hhigh : (num : ℚ) < 2 ^ (num.log2 + 1) := by exact_mod_cast Nat.lt_log2_self
  have hpower : (2 : ℚ) ^ ((num.log2 : ℤ) - den.log2 + 1) * 2 ^ den.log2 =
      2 ^ (num.log2 + 1) := by
    rw [← zpow_natCast, ← zpow_natCast, ← zpow_add₀ (by norm_num)]
    congr 1
    omega
  rw [div_lt_iff₀ (by exact_mod_cast hden)]
  calc (num : ℚ) < 2 ^ (num.log2 + 1) := hhigh
    _ = 2 ^ ((num.log2 : ℤ) - den.log2 + 1) * 2 ^ den.log2 := hpower.symm
    _ ≤ 2 ^ ((num.log2 : ℤ) - den.log2 + 1) * den :=
        mul_le_mul_of_nonneg_left hlow (zpow_pos (by norm_num) _).le

/-- Whether the whole part of the quotient, counted in units, has more than 53 bits. -/
theorem le_inUnits_div_iff (hden : 0 < den) (e : ℤ) :
    2 ^ 53 ≤ (inUnits num den e).1 / (inUnits num den e).2 ↔
      (2 ^ 53 * 2 ^ e : ℚ) ≤ num / den := by
  have hpos := inUnits_snd_pos num hden e
  have hposRat : (0 : ℚ) < (inUnits num den e).2 := by exact_mod_cast hpos
  rw [Nat.le_div_iff_mul_le hpos, ← inUnits_mul num den e,
    mul_le_mul_iff_left₀ (zpow_pos (by norm_num) e), le_div_iff₀ hposRat]
  exact_mod_cast Iff.rfl

theorem two_pow_mul_zpow (n : ℕ) (e : ℤ) : (2 ^ n * 2 ^ e : ℚ) = 2 ^ (n + e) := by
  rw [← zpow_natCast, ← zpow_add₀ (by norm_num)]

/-- The chosen unit leaves a quotient at most 53 bits before the point, and 53 unless it is the
least unit. -/
theorem unitExponent_bounds (hnum : 0 < num) (hden : 0 < den) :
    -1074 ≤ unitExponent num den ∧ (num / den : ℚ) < 2 ^ 53 * 2 ^ unitExponent num den ∧
      ((2 ^ 52 * 2 ^ unitExponent num den : ℚ) ≤ num / den ∨ unitExponent num den = -1074) := by
  have habove := zpow_lt_div hnum hden
  have hbelow := @div_lt_zpow num den hden
  unfold unitExponent
  generalize hlow : max (-1074) ((num.log2 : ℤ) - den.log2 - 53) = low
  dsimp only
  split
  · rename_i hlong
    have hle : (2 ^ 53 * 2 ^ low : ℚ) ≤ num / den := (le_inUnits_div_iff hden low).mp hlong
    refine ⟨by omega, hbelow.trans_le ?_, .inl ?_⟩
    · rw [two_pow_mul_zpow]
      exact zpow_le_zpow_right₀ (by norm_num) (by omega)
    · have hstep : ((52 : ℕ) + (low + 1) : ℤ) = (53 : ℕ) + low := by omega
      rwa [two_pow_mul_zpow, hstep, ← two_pow_mul_zpow]
  · rename_i hshort
    have hlt : (num / den : ℚ) < 2 ^ 53 * 2 ^ low :=
      not_le.mp (mt (le_inUnits_div_iff hden low).mpr hshort)
    refine ⟨by omega, hlt, ?_⟩
    by_cases hleast : low = -1074
    · exact .inr hleast
    · refine .inl (le_trans ?_ habove.le)
      rw [two_pow_mul_zpow]
      exact zpow_le_zpow_right₀ (by norm_num) (by omega)

end Units

/-! ### Rounding a quotient -/

/-- Half way between two integers the even one is taken. -/
theorem even_roundHalfEven {num den : ℕ} (hden : 0 < den)
    (htie : 2 * num = 2 * (roundHalfEven num den * den) + den ∨
      2 * (roundHalfEven num den * den) = 2 * num + den) : Even (roundHalfEven num den) := by
  have hsum := Nat.div_add_mod' num den
  have hlt := Nat.mod_lt num hden
  have hsucc : (num / den + 1) * den = num / den * den + den := Nat.succ_mul _ _
  unfold roundHalfEven at htie ⊢
  dsimp only at htie ⊢
  split at htie
  · omega
  · split at htie
    · rw [hsucc] at htie
      omega
    · rename_i hnotBelow hnotAbove
      rw [if_neg hnotBelow, if_neg hnotAbove, Nat.even_iff]
      omega

theorem abs_sub_div_eq (num : ℕ) {den : ℕ} (hden : 0 < den) (n : ℕ) :
    2 * |(n : ℚ) - num / den| = |(2 * (n * den) - 2 * num : ℚ)| / den := by
  have hpos : (0 : ℚ) < den := by exact_mod_cast hden
  have hquotient : 2 * ((n : ℚ) - num / den) = (2 * (n * den) - 2 * num) / den := by
    field_simp
  rw [← abs_of_pos hpos, ← abs_div, abs_of_pos hpos, ← hquotient, abs_mul, abs_two]

/-- The rounded quotient is at most one half off, and even if it is one half off. -/
theorem roundHalfEven_spec (num : ℕ) {den : ℕ} (hden : 0 < den) :
    2 * |(roundHalfEven num den : ℚ) - num / den| ≤ 1 ∧
      (2 * |(roundHalfEven num den : ℚ) - num / den| = 1 → Even (roundHalfEven num den)) := by
  have hpos : (0 : ℚ) < den := by exact_mod_cast hden
  obtain ⟨hbelow, habove⟩ := @roundHalfEven_near num den hden
  have hbelowRat : (2 * num : ℚ) ≤ 2 * (roundHalfEven num den * den) + den := by
    exact_mod_cast hbelow
  have haboveRat : (2 * (roundHalfEven num den * den) : ℚ) ≤ 2 * num + den := by
    exact_mod_cast habove
  rw [abs_sub_div_eq num hden]
  constructor
  · rw [div_le_one hpos, abs_le]
    constructor <;> linarith
  · intro htie
    rw [div_eq_one_iff_eq hpos.ne', abs_eq hpos.le] at htie
    refine even_roundHalfEven hden (htie.symm.imp (fun h ↦ ?_) fun h ↦ ?_)
    · have : (2 * num : ℚ) = 2 * (roundHalfEven num den * den) + den := by linarith
      exact_mod_cast this
    · have : (2 * (roundHalfEven num den * den) : ℚ) = 2 * num + den := by linarith
      exact_mod_cast this

section Quotient

variable {negative : Bool} {num den : ℕ} {x : Binary64}

/-- The whole number of units that a quotient is rounded to. -/
def roundedUnits (num den : ℕ) : ℕ :=
  roundHalfEven (inUnits num den (unitExponent num den)).1
    (inUnits num den (unitExponent num den)).2

theorem rounds_roundedUnits (hnum : 0 < num) (hden : 0 < den) :
    Rounds (num / den) (roundedUnits num den) (unitExponent num den) := by
  obtain ⟨hleast, hbelow, habove⟩ := unitExponent_bounds hnum hden
  have hunit : (0 : ℚ) < 2 ^ unitExponent num den := zpow_pos (by norm_num) _
  obtain ⟨hnear, heven⟩ := roundHalfEven_spec (inUnits num den (unitExponent num den)).1
    (inUnits_snd_pos num hden (unitExponent num den))
  have hscaled : 2 * |(roundedUnits num den * 2 ^ unitExponent num den : ℚ) - num / den| =
      2 * |(roundedUnits num den : ℚ) - (inUnits num den (unitExponent num den)).1 /
        (inUnits num den (unitExponent num den)).2| * 2 ^ unitExponent num den := by
    rw [← inUnits_mul num den (unitExponent num den), ← sub_mul, abs_mul, abs_of_pos hunit,
      mul_assoc]
  refine ⟨hleast, hbelow, habove, ?_, fun htie ↦ heven ?_⟩
  · rw [hscaled]
    exact mul_le_of_le_one_left hunit.le hnear
  · rw [hscaled] at htie
    exact mul_right_cancel₀ hunit.ne' (htie.trans (one_mul _).symm)

theorem eq_of_ofParts? {m : ℕ} {e : ℤ} (h : ofParts? negative m e = some x) :
    x.negative = negative ∧ x.mantissa = m ∧ x.exponent = e := by
  obtain ⟨_, heq⟩ := Option.dite_none_right_eq_some.mp h
  cases heq
  exact ⟨rfl, rfl, rfl⟩

theorem ofRatio?_of_pos (hnum : 0 < num) :
    ofRatio? negative num den =
      if roundedUnits num den = 2 ^ 53 then
        ofParts? negative (2 ^ 52) (unitExponent num den + 1)
      else ofParts? negative (roundedUnits num den) (unitExponent num den) := by
  rw [ofRatio?, if_neg hnum.ne']
  rfl

/-- The float has the value of the whole number of units, in its own form. -/
theorem eq_units_of_ofRatio? (hnum : 0 < num) (h : ofRatio? negative num den = some x) :
    x.negative = negative ∧
      (x.mantissa * 2 ^ x.exponent : ℚ) = roundedUnits num den * 2 ^ unitExponent num den ∧
      (Even (roundedUnits num den) → Even x.mantissa) := by
  rw [ofRatio?_of_pos hnum] at h
  split at h
  · rename_i hpower
    obtain ⟨hnegative, hmantissa, hexponent⟩ := eq_of_ofParts? h
    refine ⟨hnegative, ?_, fun _ ↦ hmantissa ▸ by decide⟩
    rw [hpower, hmantissa, hexponent, zpow_add_one₀ (by norm_num)]
    push_cast
    ring
  · obtain ⟨hnegative, hmantissa, hexponent⟩ := eq_of_ofParts? h
    rw [hmantissa, hexponent]
    exact ⟨hnegative, rfl, id⟩

end Quotient

namespace Rounds

variable {q : ℚ} {m : ℕ} {e : ℤ}

/-- The whole number of units is half a unit off at most. -/
theorem half_unit (h : Rounds q m e) :
    2 * (m * 2 ^ e) ≤ 2 * q + 2 ^ e ∧ 2 * q ≤ 2 * (m * 2 ^ e) + 2 ^ e := by
  have hnear := h.near
  rw [← abs_two, ← abs_mul, abs_le, mul_sub, abs_two] at hnear
  constructor <;> linarith

theorem le_two_pow (h : Rounds q m e) : m ≤ 2 ^ 53 := by
  have hunit : (0 : ℚ) < 2 ^ e := zpow_pos (by norm_num) e
  have hbelow := h.below
  have hnear := h.half_unit.1
  have hlt : (m : ℚ) * 2 ^ e < (2 ^ 53 + 1) * 2 ^ e := by linarith
  have hcast : (m : ℚ) < 2 ^ 53 + 1 := lt_of_mul_lt_mul_right hlt hunit.le
  exact Nat.le_of_lt_succ (by exact_mod_cast hcast)

theorem two_pow_le (h : Rounds q m e) : 2 ^ 52 ≤ m ∨ e = -1074 := by
  have hunit : (0 : ℚ) < 2 ^ e := zpow_pos (by norm_num) e
  refine h.above.imp_left fun habove ↦ ?_
  have hnear := h.half_unit.2
  have hlt : (2 ^ 52 : ℚ) * 2 ^ e < (m + 1) * 2 ^ e := by linarith
  have hcast : (2 ^ 52 : ℚ) < m + 1 := lt_of_mul_lt_mul_right hlt hunit.le
  exact Nat.le_of_lt_succ (by exact_mod_cast hcast)

/-- The largest number of units is odd, so half a unit above it a quotient is rounded up. -/
theorem two_pow_of_overflow {u : ℚ} (hu : 0 < u) (hbound : m ≤ 2 ^ 53)
    (hnear : 2 * q ≤ 2 * (m * u) + u) (heven : 2 * |m * u - q| = u → Even m)
    (h : 2 * ((2 ^ 53 - 1) * u) + u ≤ 2 * q) : m = 2 ^ 53 := by
  have hle : ((2 ^ 53 - 1) * u : ℚ) ≤ m * u := by linarith
  have hcast : (2 ^ 53 - 1 : ℚ) ≤ m := le_of_mul_le_mul_right hle hu
  have hleast : 2 ^ 53 ≤ m + 1 := by
    have hsucc : (2 ^ 53 : ℚ) ≤ m + 1 := by linarith
    exact_mod_cast hsucc
  by_contra hne
  obtain rfl : m = 2 ^ 53 - 1 := by omega
  have hodd : ¬ Even (2 ^ 53 - 1) := by decide
  refine hodd (heven ?_)
  have hvalue : ((2 ^ 53 - 1 : ℕ) : ℚ) = 2 ^ 53 - 1 := by norm_num
  rw [hvalue] at hnear ⊢
  rw [abs_sub_comm, abs_of_nonneg] <;> linarith

/-- From the midpoint above the largest finite number on, and only there, the units are too large
or too many. -/
theorem overflow_iff (h : Rounds q m e) :
    overflowThreshold ≤ q ↔ 971 < e ∨ e = 971 ∧ m = 2 ^ 53 := by
  have hthreshold : 2 * overflowThreshold = 2 * ((2 ^ 53 - 1) * 2 ^ (971 : ℤ)) + 2 ^ (971 : ℤ) := by
    rw [overflowThreshold, zpow_ofNat, pow_succ' (2 : ℚ) 970]
    generalize (2 : ℚ) ^ 970 = half
    ring
  have hscale : overflowThreshold ≤ q ↔ 2 * overflowThreshold ≤ 2 * q :=
    (mul_le_mul_iff_right₀ two_pos).symm
  have hmono {d d' : ℤ} (hd : d ≤ d') : (2 : ℚ) ^ d ≤ 2 ^ d' :=
    zpow_le_zpow_right₀ (by norm_num) hd
  have hu : (0 : ℚ) < 2 ^ (971 : ℤ) := zpow_pos (by norm_num) _
  rw [hscale, hthreshold]
  rcases lt_trichotomy e 971 with hlt | rfl | hgt
  · have hhalf : (2 : ℚ) ^ (971 : ℤ) = 2 ^ (970 : ℤ) * 2 := zpow_add_one₀ (by norm_num) 970
    have hunit : (2 : ℚ) ^ e ≤ 2 ^ (970 : ℤ) := hmono (by omega)
    have hbelow := h.below
    refine iff_of_false (not_le.mpr ?_) (by omega)
    generalize (2 : ℚ) ^ (971 : ℤ) = u at *
    generalize (2 : ℚ) ^ (970 : ℤ) = half at *
    generalize (2 : ℚ) ^ e = unit at *
    linarith
  · constructor
    · intro hq
      exact .inr ⟨rfl, two_pow_of_overflow hu h.le_two_pow h.half_unit.2 h.even hq⟩
    · rintro (hlt | ⟨-, rfl⟩)
      · exact absurd hlt (lt_irrefl _)
      · have hnear := h.half_unit.1
        rw [Nat.cast_pow, Nat.cast_ofNat] at hnear
        generalize (2 : ℚ) ^ (971 : ℤ) = u at *
        linarith
  · have hdouble : (2 : ℚ) ^ (972 : ℤ) = 2 ^ (971 : ℤ) * 2 := zpow_add_one₀ (by norm_num) 971
    have hunit : (2 : ℚ) ^ (972 : ℤ) ≤ 2 ^ e := hmono (by omega)
    have habove := h.above.resolve_right (by omega)
    refine iff_of_true ?_ (.inl hgt)
    generalize (2 : ℚ) ^ (971 : ℤ) = u at *
    generalize (2 : ℚ) ^ (972 : ℤ) = double at *
    generalize (2 : ℚ) ^ e = unit at *
    linarith

end Rounds

/-! ### Rounding with a sign -/

/-- The sign of a number as a factor. -/
def signFactor (negative : Bool) : ℚ := if negative then -1 else 1

theorem toRat_eq (x : Binary64) :
    x.toRat = signFactor x.negative * (x.mantissa * 2 ^ x.exponent) := rfl

theorem abs_signFactor (negative : Bool) : |signFactor negative| = 1 := by
  cases negative <;> simp [signFactor]

theorem abs_signFactor_mul (negative : Bool) (q : ℚ) : |signFactor negative * q| = |q| := by
  rw [abs_mul, abs_signFactor, one_mul]

theorem overflows_signFactor_mul (negative : Bool) (q : ℚ) :
    Overflows (signFactor negative * q) ↔ Overflows q := by
  rw [Overflows, Overflows, abs_signFactor_mul]

theorem signFactor_mul_self (negative : Bool) (q : ℚ) :
    signFactor negative * (signFactor negative * q) = q := by
  cases negative <;> simp [signFactor]

/-- A number is as near to a signed one as the number with this sign is to the unsigned one. -/
theorem abs_sub_signFactor_mul (negative : Bool) (r q : ℚ) :
    |r - signFactor negative * q| = |signFactor negative * r - q| := by
  rw [← abs_signFactor_mul negative (r - _), mul_sub, signFactor_mul_self]

theorem onGrid_signFactor_mul (negative : Bool) {r : ℚ} (h : OnGrid r) :
    OnGrid (signFactor negative * r) := by
  cases negative with
  | true =>
    rw [signFactor, if_pos rfl, neg_one_mul]
    exact h.neg
  | false => rwa [signFactor, if_neg Bool.false_ne_true, one_mul]

/-- What is nearest among the values of the grid is the nearest float. -/
theorem nearest_of_onGrid {negative : Bool} {q : ℚ} {x : Binary64} (hsign : x.negative = negative)
    (hnear : ∀ r, OnGrid r → |x.mantissa * 2 ^ x.exponent - q| ≤ |r - q|)
    (heven : ∀ r, OnGrid r → |r - q| = |x.mantissa * 2 ^ x.exponent - q| →
      r ≠ x.mantissa * 2 ^ x.exponent → Even x.mantissa) :
    Nearest (signFactor negative * q) x := by
  subst hsign
  have hgrid (y : Binary64) : OnGrid (signFactor x.negative * y.toRat) :=
    onGrid_signFactor_mul _ (onGrid_toRat y)
  have hx : signFactor x.negative * x.toRat = x.mantissa * 2 ^ x.exponent := by
    rw [toRat_eq, signFactor_mul_self]
  constructor
  · intro y
    rw [abs_sub_signFactor_mul, abs_sub_signFactor_mul, hx]
    exact hnear _ (hgrid y)
  · intro y hy hne
    rw [abs_sub_signFactor_mul, abs_sub_signFactor_mul, hx] at hy
    refine heven _ (hgrid y) hy fun heq ↦ hne ?_
    rw [← signFactor_mul_self x.negative y.toRat, heq, ← hx, signFactor_mul_self]

theorem magnitude_zero (negative : Bool) :
    ((zero negative).mantissa * 2 ^ (zero negative).exponent : ℚ) = 0 :=
  (congrArg (· * _) Nat.cast_zero).trans (zero_mul _)

/-- Zero is nearest to what is not more than half of the least number. -/
theorem nearest_zero (negative : Bool) {q : ℚ} (hq : 2 * |q| ≤ 2 ^ (-1074 : ℤ)) :
    Nearest (signFactor negative * q) (zero negative) := by
  refine nearest_of_onGrid rfl (fun r hr ↦ ?_) fun _ _ _ _ ↦ Even.zero
  rw [magnitude_zero, zero_sub, abs_neg]
  obtain ⟨k, e, -, he, rfl⟩ := hr
  by_cases hk : k = 0
  · rw [hk, Int.cast_zero, zero_mul, zero_sub, abs_neg]
  · have hone : (1 : ℚ) ≤ |(k : ℚ)| := by exact_mod_cast Int.one_le_abs hk
    have hleast : (2 : ℚ) ^ (-1074 : ℤ) ≤ |(k : ℚ) * 2 ^ e| := by
      rw [abs_mul, abs_of_pos (zpow_pos (by norm_num : (0 : ℚ) < 2) e)]
      exact (zpow_le_zpow_right₀ (by norm_num) he).trans
        (le_mul_of_one_le_left (zpow_pos (by norm_num) e).le hone)
    have htriangle := abs_sub_abs_le_abs_sub ((k : ℚ) * 2 ^ e) q
    linarith

/-- Rounding a quotient gives the nearest float. -/
theorem nearest_of_ofRatio? {negative : Bool} {num den : ℕ} (hden : 0 < den) {x : Binary64}
    (h : ofRatio? negative num den = some x) : Nearest (signFactor negative * (num / den)) x := by
  rcases Nat.eq_zero_or_pos num with rfl | hnum
  · cases h
    rw [Nat.cast_zero, zero_div]
    exact nearest_zero negative (by rw [abs_zero, mul_zero]; exact (zpow_pos (by norm_num) _).le)
  · obtain ⟨hsign, hvalue, heven⟩ := eq_units_of_ofRatio? hnum h
    have hrounds := rounds_roundedUnits hnum hden
    refine nearest_of_onGrid hsign (fun r hr ↦ ?_) fun r hr heq hne ↦ ?_
    · rw [hvalue]
      exact hrounds.near_of_onGrid hr
    · rw [hvalue] at heq hne
      exact heven (hrounds.even_of_onGrid hr heq hne)

/-- Nothing up to the largest power of two in the range overflows. -/
theorem not_overflows_of_abs_le {q : ℚ} (hq : |q| ≤ 2 ^ 1023) : ¬ Overflows q := by
  replace hq : |q| ≤ 2 ^ 52 * 2 ^ 971 := hq.trans_eq (pow_add 2 52 971)
  have hunit : (0 : ℚ) < 2 ^ 971 := by positivity
  have hhalf : (0 : ℚ) < 2 ^ 970 := by positivity
  rw [Overflows, not_le, overflowThreshold]
  generalize (2 : ℚ) ^ 971 = unit at *
  generalize (2 : ℚ) ^ 970 = half at *
  linarith

theorem ofParts?_eq_none_iff {negative : Bool} {m : ℕ} {e : ℤ} :
    ofParts? negative m e = none ↔ ¬ CanonicalBinary64 m e := by
  unfold ofParts?
  split <;> simp_all

/-- There is no float for a quotient exactly when it overflows. -/
theorem ofRatio?_eq_none_iff {negative : Bool} {num den : ℕ} (hden : 0 < den) :
    ofRatio? negative num den = none ↔ Overflows (num / den) := by
  rcases Nat.eq_zero_or_pos num with rfl | hnum
  · refine iff_of_false (by simp [ofRatio?]) ?_
    rw [Nat.cast_zero, zero_div]
    exact not_overflows_of_abs_le (by rw [abs_zero]; positivity)
  · have hrounds := rounds_roundedUnits hnum hden
    have hle := hrounds.le_two_pow
    have hleast := hrounds.least
    have hlow := hrounds.two_pow_le
    rw [Overflows, abs_of_nonneg (by positivity), hrounds.overflow_iff, ofRatio?_of_pos hnum]
    split
    · rename_i hpower
      rw [ofParts?_eq_none_iff, CanonicalBinary64]
      omega
    · rw [ofParts?_eq_none_iff, CanonicalBinary64]
      omega

/-! ### Numbers that are floats -/

/-- A number that is a float is rounded to it. -/
theorem Nearest.toRat_eq {q : ℚ} {x y : Binary64} (h : Nearest q x) (hy : y.toRat = q) :
    x.toRat = q := by
  have hle := h.near y
  rw [hy, sub_self, abs_zero] at hle
  exact sub_eq_zero.mp (abs_nonpos_iff.mp hle)

/-- Every value of the grid that does not overflow is the value of a float. -/
theorem exists_toRat_eq {r : ℚ} (hgrid : OnGrid r) (hfinite : ¬ Overflows r) :
    ∃ x : Binary64, x.toRat = r := by
  obtain ⟨negative, q, hq, rfl⟩ : ∃ negative q, 0 ≤ q ∧ r = signFactor negative * q := by
    rcases le_total 0 r with hr | hr
    · exact ⟨false, r, hr, by rw [signFactor, if_neg Bool.false_ne_true, one_mul]⟩
    · exact ⟨true, -r, neg_nonneg.mpr hr, by rw [signFactor, if_pos rfl, neg_one_mul, neg_neg]⟩
  obtain ⟨num, den, hden, rfl⟩ : ∃ num den : ℕ, 0 < den ∧ q = num / den :=
    ⟨q.num.toNat, q.den, q.den_pos, by
      conv_lhs => rw [← Rat.num_div_den q, ← Int.toNat_of_nonneg (Rat.num_nonneg.mpr hq)]
      rw [Int.cast_natCast]⟩
  rw [overflows_signFactor_mul, ← @ofRatio?_eq_none_iff negative num den hden] at hfinite
  obtain ⟨x, hx⟩ := Option.ne_none_iff_exists'.mp hfinite
  refine ⟨x, ?_⟩
  rcases Nat.eq_zero_or_pos num with rfl | hnum
  · cases hx
    rw [toRat_eq, magnitude_zero, Nat.cast_zero, zero_div, mul_zero, mul_zero]
  · obtain ⟨hsign, hvalue, -⟩ := eq_units_of_ofRatio? hnum hx
    have hunsigned := onGrid_signFactor_mul negative hgrid
    rw [signFactor_mul_self] at hunsigned
    have hle := (rounds_roundedUnits hnum hden).near_of_onGrid hunsigned
    rw [sub_self, abs_zero] at hle
    rw [toRat_eq, hsign, hvalue, sub_eq_zero.mp (abs_nonpos_iff.mp hle)]

/-- Integers of up to 53 bits are floats, and so is the next power of two. -/
theorem exists_toRat_eq_intCast {n : ℤ} (h : n.natAbs ≤ 2 ^ 53) : ∃ x : Binary64, x.toRat = n := by
  have habs : |n| ≤ 2 ^ 53 := by
    rw [Int.abs_eq_natAbs]
    exact_mod_cast h
  have hfinite : |(n : ℚ)| ≤ 2 ^ 1023 :=
    calc |(n : ℚ)| ≤ 2 ^ 53 := by exact_mod_cast habs
      _ ≤ 2 ^ 1023 := pow_le_pow_right₀ (by norm_num) (by norm_num)
  refine exists_toRat_eq ?_ (not_overflows_of_abs_le hfinite)
  rcases habs.lt_or_eq with hlt | heq
  · exact ⟨n, 0, hlt, by norm_num, by rw [zpow_zero, mul_one]⟩
  · rcases (abs_eq (by norm_num)).mp heq with rfl | rfl
    · exact ⟨1, 53, by norm_num, by norm_num, by norm_num⟩
    · exact ⟨-1, 53, by norm_num, by norm_num, by norm_num⟩

end Binary64

/-! ### Decimals -/

/-- The rational number that a decimal stands for. -/
def Decimal.toRat (d : Decimal) : ℚ :=
  Binary64.signFactor d.negative * (d.coefficient * 10 ^ d.exponent)

namespace Binary64

/-- What rounding is to give for a number. -/
def RoundsTo (q : ℚ) (result : Option Binary64) : Prop :=
  (result = none ↔ Overflows q) ∧ ∀ x ∈ result, Nearest q x

theorem roundsTo_ofRatio? (negative : Bool) (num : ℕ) {den : ℕ} (hden : 0 < den) :
    RoundsTo (signFactor negative * (num / den)) (ofRatio? negative num den) := by
  constructor
  · rw [ofRatio?_eq_none_iff hden, overflows_signFactor_mul]
  · exact fun x hx ↦ nearest_of_ofRatio? hden hx

theorem roundsTo_zero (negative : Bool) {q : ℚ} (hq : 2 * |q| ≤ 2 ^ (-1074 : ℤ)) :
    RoundsTo (signFactor negative * q) (some (zero negative)) := by
  have hleast : (2 : ℚ) ^ (-1074 : ℤ) ≤ 2 ^ (0 : ℤ) :=
    zpow_le_zpow_right₀ (by norm_num) (by norm_num)
  rw [zpow_zero] at hleast
  have hone : |q| ≤ 1 := by linarith [abs_nonneg q]
  constructor
  · rw [overflows_signFactor_mul]
    exact iff_of_false (Option.some_ne_none _)
      (not_overflows_of_abs_le (hone.trans (one_le_pow₀ (by norm_num))))
  · rintro x ⟨⟩
    exact nearest_zero negative hq

theorem overflows_of_large {c : ℕ} (hc : c ≠ 0) {e : ℤ} (he : 400 < e) :
    Overflows (c * 10 ^ e) := by
  have hone : (1 : ℚ) ≤ c := by exact_mod_cast Nat.one_le_iff_ne_zero.mpr hc
  have hthreshold : overflowThreshold ≤ (2 ^ 3) ^ 401 := by
    have hunit : (2 : ℚ) ^ 971 = 2 * 2 ^ 970 := pow_succ' 2 970
    have hlarge : (2 : ℚ) ^ 970 * 2 ^ 233 = (2 ^ 3) ^ 401 := by
      rw [← pow_mul, ← pow_add]
    have hpos : (0 : ℚ) < 2 ^ 970 := by positivity
    rw [overflowThreshold, hunit, ← hlarge]
    generalize (2 : ℚ) ^ 970 = half at *
    have hfactor : (2 ^ 53 - 1) * 2 + 1 ≤ (2 : ℚ) ^ 233 := by norm_num
    calc (2 ^ 53 - 1) * (2 * half) + half = half * ((2 ^ 53 - 1) * 2 + 1) := by ring
      _ ≤ half * 2 ^ 233 := mul_le_mul_of_nonneg_left hfactor hpos.le
  rw [Overflows, abs_of_nonneg (mul_nonneg (Nat.cast_nonneg c) (zpow_pos (by norm_num) e).le)]
  calc overflowThreshold ≤ (2 ^ 3) ^ 401 := hthreshold
    _ ≤ 10 ^ 401 := pow_le_pow_left₀ (by norm_num) (by norm_num) 401
    _ = 10 ^ (401 : ℤ) := (zpow_natCast 10 401).symm
    _ ≤ 10 ^ e := zpow_le_zpow_right₀ (by norm_num) (by omega)
    _ ≤ c * 10 ^ e := le_mul_of_one_le_left (zpow_pos (by norm_num) e).le hone

theorem mul_zpow_of_neg (c : ℕ) {e : ℤ} (he : ¬ 0 ≤ e) :
    (c * 10 ^ e : ℚ) = c / (10 ^ (-e).toNat : ℕ) := by
  have hplaces : e = -((-e).toNat : ℤ) := by omega
  conv_lhs => rw [hplaces, zpow_neg, zpow_natCast]
  rw [Nat.cast_pow, Nat.cast_ofNat, div_eq_mul_inv]

/-- So many places leave less than half of the least number. -/
theorem two_mul_le_of_small {c places : ℕ} (h : c.log2 + 1077 < 3 * places) :
    2 * |(c / (10 ^ places : ℕ) : ℚ)| ≤ 2 ^ (-1074 : ℤ) := by
  have hc : (c : ℚ) < 2 ^ (c.log2 + 1) := by exact_mod_cast Nat.lt_log2_self
  have hscaled : (2 * c * 2 ^ 1074 : ℚ) ≤ 10 ^ places :=
    calc (2 * c * 2 ^ 1074 : ℚ) = c * 2 ^ 1075 := by
          rw [pow_succ' (2 : ℚ) 1074, ← mul_assoc, mul_comm (c : ℚ)]
      _ ≤ 2 ^ (c.log2 + 1) * 2 ^ 1075 := mul_le_mul_of_nonneg_right hc.le (by positivity)
      _ = 2 ^ (c.log2 + 1 + 1075) := (pow_add 2 _ _).symm
      _ ≤ 2 ^ (3 * places) := pow_le_pow_right₀ (by norm_num) (by omega)
      _ = (2 ^ 3) ^ places := pow_mul 2 3 places
      _ ≤ 10 ^ places := pow_le_pow_left₀ (by norm_num) (by norm_num) places
  have hplaces : (0 : ℚ) < 10 ^ places := by positivity
  rw [abs_of_nonneg (by positivity), zpow_neg, zpow_ofNat, Nat.cast_pow, Nat.cast_ofNat,
    ← mul_div_assoc, div_le_iff₀ hplaces, inv_mul_eq_div, le_div_iff₀ (by positivity)]
  exact hscaled

/-- Rounding a decimal gives the nearest float, and there is none exactly when the decimal
overflows. -/
theorem roundsTo_ofDecimal? (d : Decimal) : RoundsTo d.toRat (ofDecimal? d) := by
  unfold ofDecimal? Decimal.toRat
  split
  · rename_i hzero
    rw [hzero, Nat.cast_zero, zero_mul]
    exact roundsTo_zero d.negative (by rw [abs_zero, mul_zero]; exact (zpow_pos (by norm_num) _).le)
  · rename_i hne
    split
    · rename_i hlarge
      refine ⟨iff_of_true rfl ?_, by simp⟩
      exact (overflows_signFactor_mul _ _).mpr (overflows_of_large hne hlarge)
    · split
      · rename_i hwhole
        have h := roundsTo_ofRatio? d.negative (d.coefficient * 10 ^ d.exponent.toNat) one_pos
        have hexponent : (10 : ℚ) ^ d.exponent = 10 ^ d.exponent.toNat := by
          rw [← zpow_natCast, Int.toNat_of_nonneg hwhole]
        rwa [Nat.cast_mul, Nat.cast_pow, Nat.cast_ofNat, Nat.cast_one, div_one, ← hexponent] at h
      · rename_i hfraction
        rw [mul_zpow_of_neg _ hfraction]
        dsimp only
        split
        · rename_i hsmall
          exact roundsTo_zero d.negative (two_mul_le_of_small hsmall)
        · exact roundsTo_ofRatio? d.negative d.coefficient (Nat.pow_pos (by decide))

end Binary64

end RowFilter
