import Mathlib.Tactic.SplitIfs
import RowFilter.QueryString.Coercion
import RowFilter.QueryString.Tree

/-!
Scalars whose text is coerced back to them: the words of the booleans and of null, the decimal
digits of an integer that a signed word holds, and every string that is not taken for something
else.
-/

set_option autoImplicit false

namespace RowFilter

-- Powers are the built-in ones, whatever is imported beside this module.
attribute [local instance (high)] instPowNat

/-- A scalar that its text stands for. -/
def Scalar.Plain : Scalar → Prop
  | .null => True
  | .bool _ => True
  | .number (.int n) => -2 ^ (63 : Nat) ≤ n ∧ n < 2 ^ (63 : Nat)
  | .number (.float _) => False
  | .string s => QueryString.coerce? s = some (.string s)

namespace QueryString

/-! ### Integers -/

namespace Numeral

/-- A text that begins with a digit has no sign. -/
theorem sign_of_isDigit {text : List Char} (h : ∀ c ∈ text.head?, c.isDigit = true) :
    sign text = (false, text) := by
  rw [sign.eq_def]
  split
  · exact absurd (h '-' rfl) (by decide)
  · exact absurd (h '+' rfl) (by decide)
  · rfl

theorem sign_toDigits (n : Nat) : sign (Nat.toDigits 10 n) = (false, Nat.toDigits 10 n) :=
  sign_of_isDigit fun _ hc ↦
    Nat.isDigit_of_mem_toDigits (by decide) (by decide) (List.mem_of_mem_head? hc)

theorem sign_toString (n : Int) :
    sign (toString n).toList = (decide (n < 0), Nat.toDigits 10 n.natAbs) := by
  rw [Int.toString_eq_repr, Int.repr_eq_if]
  split_ifs with hnonneg
  · have hnat : n.toNat = n.natAbs := by omega
    have hneg : decide (n < 0) = false := by simpa using hnonneg
    rw [Nat.toList_repr, sign_toDigits, hnat, hneg]
  · have hnat : (-n).toNat = n.natAbs := by omega
    have hneg : decide (n < 0) = true := by simpa using hnonneg
    rw [String.toList_append, Nat.toList_repr, hnat, hneg]
    rfl

/-- The text of an integer is a numeral without a fraction. -/
theorem ofText?_toString (n : Int) :
    ofText? (toString n).toList = some ⟨decide (n < 0), Nat.toDigits 10 n.natAbs, []⟩ := by
  have hsplit : Decimal.splitDigits (Nat.toDigits 10 n.natAbs) =
      (Nat.toDigits 10 n.natAbs, []) := by
    have h := @Decimal.splitDigits_toDigits_append n.natAbs [] (by simp)
    rwa [List.append_nil] at h
  obtain ⟨c, cs, hcs⟩ := List.exists_cons_of_ne_nil (Nat.toDigits_ne_nil (n := n.natAbs) (b := 10))
  simp only [ofText?, sign_toString, hsplit]
  rw [hcs]

theorem toInt?_toString (n : Int) :
    toInt? ⟨decide (n < 0), Nat.toDigits 10 n.natAbs, []⟩ = some n := by
  have hsigned : (if decide (n < 0) = true then -(n.natAbs : Int) else n.natAbs) = n := by
    split_ifs with hneg
    · have : n < 0 := by simpa using hneg
      omega
    · have : ¬ n < 0 := by simpa using hneg
      omega
  simp only [toInt?, List.isEmpty_nil, if_true, Decimal.natOfDigits_toDigits, hsigned]

end Numeral

/-- None of the four words is a numeral. -/
theorem coerce?_of_numeral {text : String} {n : Numeral} {x : Number}
    (htext : Numeral.ofText? text.toList = some n) (hnumber : n.toNumber? = some x) :
    coerce? text = some (.number x) := by
  have hne (word : String) (hword : Numeral.ofText? word.toList = none) : text ≠ word := by
    rintro rfl
    cases hword.symm.trans htext
  rw [coerce?, if_neg (hne "undefined" (by decide)), if_neg (hne "null" (by decide)),
    if_neg (hne "true" (by decide)), if_neg (hne "false" (by decide)), numberOrText, htext,
    Option.bind_some, hnumber]

theorem coerce?_toString {n : Int} (hleast : -2 ^ (63 : Nat) ≤ n) (hgreatest : n < 2 ^ (63 : Nat)) :
    coerce? (toString n) = some (.number (.int n)) := by
  have hfits : Numeral.fitsWord n = true := by
    simpa [Numeral.fitsWord] using And.intro hleast hgreatest
  refine coerce?_of_numeral (Numeral.ofText?_toString n) ?_
  simp only [Numeral.toNumber?, Numeral.toInt?_toString, hfits, if_true]

/-! ### Scalars -/

/-- The text of a plain scalar is written without quotes, and coerced back to it. -/
theorem coerce?_memberName {s : Scalar} (h : s.Plain) : coerce? (memberName s) = some s := by
  cases s with
  | null => decide
  | bool b => cases b <;> decide
  | number x =>
    cases x with
    | int n => exact coerce?_toString h.1 h.2
    | float x => exact h.elim
  | string s => exact h

end QueryString

end RowFilter
