import RowFilter.Proofs.Decimal.Rounding
import RowFilter.Proofs.QueryString.Coercion

/-!
Numerals as a grammar, and the scalars that texts are coerced to. A text is a numeral exactly when
it is a sign, digits and perhaps a point with more digits (`Numeral.ofText?_eq_some_iff`), and it
stands for a rational number. Four words aside, the numerals in the range of floats become numbers
and every other text stays a string (`coerce?_partition`). A whole number is kept if it is written
without a fraction; with one it passes through the nearest float and is kept only if it is a float
(`coerce?_of_whole`).
-/

set_option autoImplicit false

namespace RowFilter.QueryString

open Binary64 (Nearest Overflows)

namespace Numeral

/-! ### How numerals are written -/

/-- One ASCII digit or more. -/
def IsDigits (text : List Char) : Prop := text ≠ [] ∧ ∀ c ∈ text, c.isDigit = true

/-- A sign as it is written, where a positive one may be left out. -/
inductive WritesSign : Bool → List Char → Prop
  | absent : WritesSign false []
  | plus : WritesSign false ['+']
  | minus : WritesSign true ['-']

/-- A fraction as it is written: not at all, or as digits behind a point. -/
inductive WritesFraction : List Char → List Char → Prop
  | absent : WritesFraction [] []
  | digits {fraction : List Char} (digits : IsDigits fraction) :
      WritesFraction fraction ('.' :: fraction)

/-- The text is the written form of the numeral: a sign, digits and a fraction. -/
inductive Writes : Numeral → List Char → Prop
  | intro {negative : Bool} {sign whole fraction tail : List Char}
      (sign_written : WritesSign negative sign) (digits : IsDigits whole)
      (fraction_written : WritesFraction fraction tail) :
      Writes ⟨negative, whole, fraction⟩ (sign ++ whole ++ tail)

theorem WritesFraction.head?_isDigit {fraction tail : List Char}
    (h : WritesFraction fraction tail) : ∀ c ∈ tail.head?, c.isDigit = false := by
  cases h with
  | absent => simp
  | digits _ => simp

/-- The sign is read off in front of a digit. -/
theorem sign_append {negative : Bool} {written : List Char} (h : WritesSign negative written)
    {unsigned : List Char} (hdigit : ∀ c ∈ unsigned.head?, c.isDigit = true) :
    sign (written ++ unsigned) = (negative, unsigned) := by
  cases h with
  | absent => exact sign_of_isDigit hdigit
  | plus => rfl
  | minus => rfl

theorem exists_writesSign (text : List Char) :
    ∃ written, WritesSign (sign text).1 written ∧ text = written ++ (sign text).2 := by
  rw [sign.eq_def]
  split
  · exact ⟨['-'], .minus, rfl⟩
  · exact ⟨['+'], .plus, rfl⟩
  · exact ⟨[], .absent, rfl⟩

theorem ofText?_of_writes {n : Numeral} {text : List Char} (h : n.Writes text) :
    ofText? text = some n := by
  cases h with
  | @intro negative written whole fraction tail hsign hwhole hfraction =>
    obtain ⟨c, cs, rfl⟩ := List.exists_cons_of_ne_nil hwhole.1
    have hhead : ∀ d ∈ (c :: cs ++ tail).head?, d.isDigit = true := by
      rintro d ⟨⟩
      exact hwhole.2 c List.mem_cons_self
    have hsplit := Decimal.splitDigits_append_of_isDigit hwhole.2 hfraction.head?_isDigit
    rw [List.append_assoc]
    unfold ofText?
    rw [sign_append hsign hhead]
    dsimp only
    rw [hsplit]
    cases hfraction with
    | absent => rfl
    | digits hdigits =>
      have hrest := @Decimal.splitDigits_append_of_isDigit _ [] hdigits.2 (by simp)
      rw [List.append_nil] at hrest
      obtain ⟨d, ds, rfl⟩ := List.exists_cons_of_ne_nil hdigits.1
      simp only [hrest]

theorem isDigits_splitDigits {text whole rest : List Char}
    (h : Decimal.splitDigits text = (whole, rest)) (hne : whole ≠ []) :
    IsDigits whole ∧ text = whole ++ rest := by
  have happend := Decimal.splitDigits_append text
  rw [h] at happend
  cases h
  exact ⟨⟨hne, List.all_eq_true.mp List.all_takeWhile⟩, happend.symm⟩

theorem writes_of_ofText? {n : Numeral} {text : List Char} (h : ofText? text = some n) :
    n.Writes text := by
  obtain ⟨written, hsign, htext⟩ := exists_writesSign text
  unfold ofText? at h
  generalize sign text = parts at *
  obtain ⟨negative, unsigned⟩ := parts
  dsimp only at h hsign htext
  rw [htext]
  split at h
  · cases h
  · rename_i whole hwhole hsplit
    cases h
    obtain ⟨hdigits, hunsigned⟩ := isDigits_splitDigits hsplit hwhole
    rw [hunsigned, ← List.append_assoc]
    exact .intro hsign hdigits .absent
  · rename_i whole rest hwhole hsplit
    obtain ⟨hdigits, hunsigned⟩ := isDigits_splitDigits hsplit hwhole
    split at h
    · cases h
    · rename_i fraction hfraction hrest
      cases h
      obtain ⟨hbehind, hrest⟩ := isDigits_splitDigits hrest hfraction
      rw [List.append_nil] at hrest
      rw [hunsigned, hrest, ← List.append_assoc]
      exact .intro hsign hdigits (.digits hbehind)
    · cases h
  · cases h

theorem ofText?_eq_some_iff {n : Numeral} {text : List Char} :
    ofText? text = some n ↔ n.Writes text :=
  ⟨writes_of_ofText?, ofText?_of_writes⟩

/-! ### What numerals stand for -/

/-- The rational number that a numeral stands for. -/
def toRat (n : Numeral) : ℚ :=
  Binary64.signFactor n.negative *
    (Decimal.natOfDigits n.whole + Decimal.natOfDigits n.fraction / 10 ^ n.fraction.length)

theorem toRat_toDecimal (n : Numeral) : n.toDecimal.toRat = n.toRat := by
  have hdigits : Decimal.natOfDigits (n.whole ++ n.fraction) =
      10 ^ n.fraction.length * Decimal.natOfDigits n.whole + Decimal.natOfDigits n.fraction := by
    rw [Decimal.natOfDigits, Nat.ofDigitChars_append, Nat.ofDigitChars_eq_ofDigitChars_zero]
    rfl
  have hpower : (10 : ℚ) ^ n.fraction.length ≠ 0 := pow_ne_zero _ (by norm_num)
  rw [toDecimal, Decimal.ofDigits, Decimal.toRat, toRat, hdigits, zero_sub, zpow_neg, zpow_natCast]
  push_cast
  field_simp

theorem toInt?_of_fraction_ne_nil {n : Numeral} (h : n.fraction ≠ []) : n.toInt? = none := by
  rw [toInt?, if_neg (by simpa using h)]

/-- A numeral without a fraction stands for its integer. -/
theorem exists_toInt? {n : Numeral} (h : n.fraction = []) :
    ∃ i : ℤ, n.toInt? = some i ∧ n.toRat = i := by
  refine ⟨_, if_pos (by simp [h]), ?_⟩
  rw [toRat, h]
  cases n.negative <;> simp [Binary64.signFactor, Decimal.natOfDigits]

theorem fitsWord_iff {i : ℤ} : fitsWord i = true ↔ -2 ^ 63 ≤ i ∧ i < 2 ^ 63 := by
  rw [fitsWord, Bool.and_eq_true, decide_eq_true_iff, decide_eq_true_iff]

/-- A float gives way to the integer that it is equal to, if the magnitude is below `2 ^ 63`. -/
theorem numberOfFloat_eq_int_iff {x : Binary64} {i : ℤ} :
    numberOfFloat x = .int i ↔ x.toRat = i ∧ i.natAbs < 2 ^ 63 := by
  rw [← Binary64.toInt?_eq_some_iff]
  unfold numberOfFloat
  cases x.toInt? with
  | none => simp
  | some n =>
    dsimp only
    split
    · rename_i hsmall
      constructor
      · rintro ⟨⟩
        exact ⟨rfl, hsmall⟩
      · rintro ⟨⟨⟩, -⟩
        rfl
    · rename_i hlarge
      refine iff_of_false (by simp) ?_
      rintro ⟨⟨⟩, hsmall⟩
      exact hlarge hsmall

/-- The nearest float stands for a number unless the numeral is out of range. -/
theorem cases_of_nearest? (n : Numeral) :
    n.nearest? = none ∧ Overflows n.toRat ∨
      ∃ x, n.nearest? = some (numberOfFloat x) ∧ Nearest n.toRat x ∧ ¬ Overflows n.toRat := by
  obtain ⟨hnone, hnearest⟩ := Binary64.roundsTo_ofDecimal? n.toDecimal
  rw [toRat_toDecimal] at hnone hnearest
  unfold nearest?
  cases hfloat : Binary64.ofDecimal? n.toDecimal with
  | none => exact .inl ⟨rfl, hnone.mp hfloat⟩
  | some x =>
    have hfinite : ¬ Overflows n.toRat := mt hnone.mpr (by rw [hfloat]; exact Option.some_ne_none x)
    exact .inr ⟨x, rfl, hnearest x hfloat, hfinite⟩

theorem not_overflows_of_fitsWord {i : ℤ} (h : fitsWord i = true) : ¬ Overflows (i : ℚ) := by
  obtain ⟨hleast, hless⟩ := fitsWord_iff.mp h
  have habs : |i| ≤ 2 ^ 63 := abs_le.mpr ⟨hleast, hless.le⟩
  refine Binary64.not_overflows_of_abs_le ?_
  calc |(i : ℚ)| ≤ 2 ^ 63 := by exact_mod_cast habs
    _ ≤ 2 ^ 1023 := pow_le_pow_right₀ (by norm_num) (by norm_num)

/-- The number of a numeral is the integer that is written, where a word holds it, and otherwise
what the nearest float gives. -/
theorem cases_of_toNumber? (n : Numeral) :
    (∃ i : ℤ, n.fraction = [] ∧ n.toRat = i ∧ fitsWord i = true ∧ n.toNumber? = some (.int i)) ∨
      (∀ i : ℤ, n.fraction = [] → n.toRat = i → fitsWord i = false) ∧
        n.toNumber? = n.nearest? := by
  unfold toNumber?
  by_cases hfraction : n.fraction = []
  · obtain ⟨i, hint, hvalue⟩ := exists_toInt? hfraction
    rw [hint]
    cases hfits : fitsWord i with
    | true => exact .inl ⟨i, hfraction, hvalue, hfits, if_pos hfits⟩
    | false =>
      refine .inr ⟨fun j _ hj ↦ ?_, by simp [hfits]⟩
      rw [hvalue, Int.cast_inj] at hj
      rwa [← hj]
  · rw [toInt?_of_fraction_ne_nil hfraction]
    exact .inr ⟨fun _ h ↦ absurd h hfraction, rfl⟩

/-- A numeral has no number exactly when it is out of the range of floats. -/
theorem toNumber?_eq_none_iff (n : Numeral) : n.toNumber? = none ↔ Overflows n.toRat := by
  rcases n.cases_of_toNumber? with ⟨i, -, hvalue, hfits, hnumber⟩ | ⟨-, hnumber⟩
  · rw [hnumber, hvalue]
    exact iff_of_false (Option.some_ne_none _) (not_overflows_of_fitsWord hfits)
  · rw [hnumber]
    rcases n.cases_of_nearest? with ⟨hnone, hover⟩ | ⟨x, hsome, -, hfinite⟩
    · exact iff_of_true hnone hover
    · exact iff_of_false (by rw [hsome]; exact Option.some_ne_none _) hfinite

theorem toNumber?_of_fits {n : Numeral} {i : ℤ} (hfraction : n.fraction = []) (hvalue : n.toRat = i)
    (hfits : fitsWord i = true) : n.toNumber? = some (.int i) := by
  rcases n.cases_of_toNumber? with ⟨j, -, hj, -, hnumber⟩ | ⟨hunfit, -⟩
  · rw [hvalue, Int.cast_inj] at hj
    rw [hnumber, hj]
  · rw [hunfit i hfraction hvalue] at hfits
    cases hfits

end Numeral

/-! ### What texts are coerced to -/

/-- The words that stand for no number and no string. -/
def words : List String := ["undefined", "null", "true", "false"]

theorem coerce?_of_notMem_words {text : String} (h : text ∉ words) :
    coerce? text = some (numberOrText text) := by
  simp only [words, List.mem_cons, List.not_mem_nil, or_false, not_or] at h
  obtain ⟨hundefined, hnull, htrue, hfalse⟩ := h
  rw [coerce?, if_neg hundefined, if_neg hnull, if_neg htrue, if_neg hfalse]

/-- No word is a numeral. -/
theorem not_writes_of_mem_words {text : String} (h : text ∈ words) (n : Numeral) :
    ¬ n.Writes text.toList := by
  have hnone : ∀ word ∈ words, Numeral.ofText? word.toList = none := by decide
  rw [← Numeral.ofText?_eq_some_iff, hnone text h]
  exact (Option.some_ne_none n).symm

/-- Beside the words a text is a number if it is a numeral in the range of floats, and otherwise
stays as it is. -/
theorem cases_of_numberOrText (text : String) :
    (∃ (n : Numeral) (x : Number), n.Writes text.toList ∧ ¬ Overflows n.toRat ∧
        numberOrText text = .number x) ∨
      (∀ n : Numeral, n.Writes text.toList → Overflows n.toRat) ∧
        numberOrText text = .string text := by
  unfold numberOrText
  cases hread : Numeral.ofText? text.toList with
  | none =>
    refine .inr ⟨fun n hn ↦ ?_, rfl⟩
    cases hread.symm.trans (Numeral.ofText?_of_writes hn)
  | some n =>
    have hwrites := Numeral.writes_of_ofText? hread
    rw [Option.bind_some]
    cases hnumber : n.toNumber? with
    | none =>
      refine .inr ⟨fun m hm ↦ ?_, rfl⟩
      cases hread.symm.trans (Numeral.ofText?_of_writes hm)
      exact n.toNumber?_eq_none_iff.mp hnumber
    | some x =>
      refine .inl ⟨n, x, hwrites, mt n.toNumber?_eq_none_iff.mpr ?_, rfl⟩
      rw [hnumber]
      exact Option.some_ne_none x

section Coerced

variable {text : String}

/-- The words stand for nothing, null and the booleans. -/
theorem coerce?_of_mem_words (h : text ∈ words) :
    coerce? text ∈ [none, some .null, some (.bool true), some (.bool false)] := by
  have hwords : ∀ word ∈ words,
      coerce? word ∈ [none, some .null, some (.bool true), some (.bool false)] := by decide
  exact hwords text h

theorem numberOrText_ne {s : Scalar} (hnumber : ∀ x, s ≠ .number x) (hstring : s ≠ .string text) :
    numberOrText text ≠ s := by
  rcases cases_of_numberOrText text with ⟨_, x, -, -, heq⟩ | ⟨-, heq⟩
  · rw [heq]
    exact (hnumber x).symm
  · rw [heq]
    exact hstring.symm

theorem coerce?_eq_none_iff : coerce? text = none ↔ text = "undefined" := by
  unfold coerce?
  split_ifs <;> simp_all

theorem coerce?_eq_null_iff : coerce? text = some .null ↔ text = "null" := by
  have hrest : numberOrText text ≠ .null := numberOrText_ne (by simp) (by simp)
  unfold coerce?
  split_ifs <;> simp_all

theorem coerce?_eq_bool_iff (b : Bool) :
    coerce? text = some (.bool b) ↔ text = if b then "true" else "false" := by
  have hrest : numberOrText text ≠ .bool b := numberOrText_ne (by simp) (by simp)
  unfold coerce?
  cases b <;> split_ifs <;> simp_all

/-- The numbers are the numerals in the range of floats. -/
theorem exists_coerce?_eq_number_iff : (∃ x, coerce? text = some (.number x)) ↔
    ∃ n : Numeral, n.Writes text.toList ∧ ¬ Overflows n.toRat := by
  by_cases hword : text ∈ words
  · refine iff_of_false ?_ fun ⟨n, hwrites, _⟩ ↦ not_writes_of_mem_words hword n hwrites
    rintro ⟨x, hx⟩
    simpa [hx] using coerce?_of_mem_words hword
  · rw [coerce?_of_notMem_words hword]
    rcases cases_of_numberOrText text with ⟨n, x, hwrites, hfinite, hnumber⟩ | ⟨hover, hstring⟩
    · exact iff_of_true ⟨x, by rw [hnumber]⟩ ⟨n, hwrites, hfinite⟩
    · refine iff_of_false (by simp [hstring]) ?_
      rintro ⟨n, hwrites, hfinite⟩
      exact hfinite (hover n hwrites)

/-- A text stays as it is unless it is a word or a numeral in the range of floats. -/
theorem coerce?_eq_string_iff (s : String) : coerce? text = some (.string s) ↔
    s = text ∧ text ∉ words ∧ ∀ n : Numeral, n.Writes text.toList → Overflows n.toRat := by
  by_cases hword : text ∈ words
  · refine iff_of_false (fun hs ↦ ?_) fun h ↦ h.2.1 hword
    simpa [hs] using coerce?_of_mem_words hword
  · rw [coerce?_of_notMem_words hword]
    rcases cases_of_numberOrText text with ⟨n, x, hwrites, hfinite, hnumber⟩ | ⟨hover, hstring⟩
    · exact iff_of_false (by simp [hnumber]) fun h ↦ hfinite (h.2.2 n hwrites)
    · rw [hstring, Option.some.injEq, Scalar.string.injEq]
      exact ⟨fun h ↦ ⟨h.symm, hword, hover⟩, fun h ↦ h.1.symm⟩

end Coerced

/-- An integer that is written without a fraction and that a word holds is kept. -/
theorem coerce?_of_writes {text : String} {n : Numeral} {i : ℤ} (hwrites : n.Writes text.toList)
    (hfraction : n.fraction = []) (hvalue : n.toRat = i) (hfits : Numeral.fitsWord i = true) :
    coerce? text = some (.int i) :=
  coerce?_of_numeral (Numeral.ofText?_of_writes hwrites)
    (Numeral.toNumber?_of_fits hfraction hvalue hfits)

/-- The kinds of scalars share out the texts: three words and their like, the numerals in the range
of floats, and all other texts, which stay as they are. An integer that a word of 64 bits holds is
the value of its numeral, however many zeros and whichever sign it is written with. -/
theorem coerce?_partition (text : String) :
    (coerce? text = none ↔ text = "undefined") ∧
      (coerce? text = some .null ↔ text = "null") ∧
      (∀ b, coerce? text = some (.bool b) ↔ text = if b then "true" else "false") ∧
      ((∃ x, coerce? text = some (.number x)) ↔
        ∃ n : Numeral, n.Writes text.toList ∧ ¬ Overflows n.toRat) ∧
      (∀ s, coerce? text = some (.string s) ↔ s = text ∧ text ∉ words ∧
        ∀ n : Numeral, n.Writes text.toList → Overflows n.toRat) ∧
      ∀ (n : Numeral) (i : ℤ), n.Writes text.toList → n.fraction = [] → n.toRat = i →
        -2 ^ 63 ≤ i → i < 2 ^ 63 → coerce? text = some (.int i) := by
  refine ⟨coerce?_eq_none_iff, coerce?_eq_null_iff, coerce?_eq_bool_iff,
    exists_coerce?_eq_number_iff, coerce?_eq_string_iff, ?_⟩
  intro n i hwrites hfraction hvalue hleast hless
  exact coerce?_of_writes hwrites hfraction hvalue (Numeral.fitsWord_iff.mpr ⟨hleast, hless⟩)

theorem coerce?_partition_of_padded_texts :
    coerce? "-0009223372036854775808" = some (.int (-2 ^ 63)) ∧
      (∃ x, coerce? "+007.50" = some (.number x)) ∧ coerce? "1e5" = some (.string "1e5") := by
  refine ⟨?_, ?_, ?_⟩
  · have hdigits : Decimal.natOfDigits "0009223372036854775808".toList = 2 ^ 63 := by decide
    refine (coerce?_partition _).2.2.2.2.2 ⟨true, "0009223372036854775808".toList, []⟩ _
      (Numeral.ofText?_eq_some_iff.mp (by decide)) rfl ?_ le_rfl (by norm_num)
    rw [Numeral.toRat, hdigits]
    norm_num [Binary64.signFactor, Decimal.natOfDigits]
  · refine (coerce?_partition _).2.2.2.1.mpr ⟨⟨false, "007".toList, "50".toList⟩,
      Numeral.ofText?_eq_some_iff.mp (by decide), mt (Numeral.toNumber?_eq_none_iff _).mpr ?_⟩
    decide +kernel
  · refine ((coerce?_partition _).2.2.2.2.1 _).mpr ⟨rfl, by decide, fun n hn ↦ ?_⟩
    rw [← Numeral.ofText?_eq_some_iff] at hn
    exact absurd hn (by rw [show Numeral.ofText? "1e5".toList = none by decide]; simp)

/-! ### Whole numbers -/

/-- The number of a numeral with a fraction is what the nearest float gives. -/
theorem exists_coerce?_of_fraction {text : String} {n : Numeral} {i : ℤ}
    (hwrites : n.Writes text.toList) (hfraction : n.fraction ≠ []) (hvalue : n.toRat = i)
    (hfits : Numeral.fitsWord i = true) :
    ∃ x, Nearest i x ∧ coerce? text = some (.number (Numeral.numberOfFloat x)) := by
  rcases n.cases_of_toNumber? with ⟨_, hnone, -⟩ | ⟨-, hnumber⟩
  · exact absurd hnone hfraction
  · rcases n.cases_of_nearest? with ⟨-, hover⟩ | ⟨x, hsome, hnearest, -⟩
    · rw [hvalue] at hover
      exact absurd hover (Numeral.not_overflows_of_fitsWord hfits)
    · rw [hvalue] at hnearest
      have hread := Numeral.ofText?_of_writes hwrites
      exact ⟨x, hnearest, coerce?_of_numeral hread (hnumber.trans hsome)⟩

/-- A whole number that a word of 64 bits holds is kept if it is written without a fraction. With a
fraction, and be it zeros, the nearest float decides: the number is kept if it is a float itself and
not the least integer of a word, so in particular up to `2 ^ 53`. -/
theorem coerce?_of_whole {text : String} {n : Numeral} {i : ℤ} (hwrites : n.Writes text.toList)
    (hvalue : n.toRat = i) (hleast : -2 ^ 63 ≤ i) (hless : i < 2 ^ 63) :
    (coerce? text = some (.int i) ↔
        n.fraction = [] ∨ i ≠ -2 ^ 63 ∧ ∃ x : Binary64, x.toRat = i) ∧
      (i.natAbs ≤ 2 ^ 53 → coerce? text = some (.int i)) ∧
      (n.fraction ≠ [] →
        ∃ x, Nearest i x ∧ coerce? text = some (.number (Numeral.numberOfFloat x))) := by
  have hfits := Numeral.fitsWord_iff.mpr ⟨hleast, hless⟩
  have hrounded (hfraction : n.fraction ≠ []) :=
    exists_coerce?_of_fraction hwrites hfraction hvalue hfits
  have hkept : coerce? text = some (.int i) ↔
      n.fraction = [] ∨ i ≠ -2 ^ 63 ∧ ∃ x : Binary64, x.toRat = i := by
    by_cases hfraction : n.fraction = []
    · exact iff_of_true (coerce?_of_writes hwrites hfraction hvalue hfits) (.inl hfraction)
    · obtain ⟨x, hnearest, hnumber⟩ := hrounded hfraction
      have hsmall : i.natAbs < 2 ^ 63 ↔ i ≠ -2 ^ 63 := by omega
      have hfloat : x.toRat = i ↔ ∃ y : Binary64, y.toRat = i :=
        ⟨fun h ↦ ⟨x, h⟩, fun ⟨_, hy⟩ ↦ hnearest.toRat_eq hy⟩
      rw [hnumber, Scalar.int, Option.some.injEq, Scalar.number.injEq,
        Numeral.numberOfFloat_eq_int_iff, hfloat, hsmall, or_iff_right hfraction, and_comm]
  refine ⟨hkept, fun hbound ↦ hkept.mpr (.inr ⟨?_, Binary64.exists_toRat_eq_intCast hbound⟩),
    hrounded⟩
  rintro rfl
  exact absurd hbound (by decide)

theorem coerce?_of_whole_with_fraction :
    coerce? "-0009007199254740992.00" = some (.int (-2 ^ 53)) := by
  have hdigits : Decimal.natOfDigits "0009007199254740992".toList = 2 ^ 53 := by decide
  have hzeros : Decimal.natOfDigits "00".toList = 0 := by decide
  refine (coerce?_of_whole (n := ⟨true, "0009007199254740992".toList, "00".toList⟩)
    (Numeral.ofText?_eq_some_iff.mp (by decide)) ?_ (by norm_num) (by norm_num)).2.1 (by decide)
  rw [Numeral.toRat, hdigits, hzeros]
  norm_num [Binary64.signFactor]

/-- Above `2 ^ 53` an odd number that is written with a zero behind the point is moved to an even
one. -/
theorem not_forall_coerce?_of_whole :
    ¬ ∀ (text : String) (n : Numeral) (i : ℤ), n.Writes text.toList → n.toRat = i → -2 ^ 63 ≤ i →
      i < 2 ^ 63 → coerce? text = some (.int i) := by
  intro h
  have hdigits : Decimal.natOfDigits "9007199254740993".toList = 9007199254740993 := by decide
  have hzero : Decimal.natOfDigits "0".toList = 0 := by decide
  have hkept := h "9007199254740993.0" ⟨false, "9007199254740993".toList, "0".toList⟩
    9007199254740993 (Numeral.ofText?_eq_some_iff.mp (by decide))
    (by rw [Numeral.toRat, hdigits, hzero]; norm_num [Binary64.signFactor]) (by norm_num)
    (by norm_num)
  have hmoved : coerce? "9007199254740993.0" = some (.int 9007199254740992) := by decide +kernel
  cases hmoved.symm.trans hkept

end RowFilter.QueryString
