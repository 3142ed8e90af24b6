import RowFilter.Schema.Check
import Mathlib.Data.List.Basic

/-!
What is accepted. For each part of a filter document there is one lemma that says when the check of
that part finds nothing, in terms of the value alone and of the checks one level down. Properties of
accepted documents follow the document with these lemmas and open none of the checks.
-/

set_option autoImplicit false

namespace RowFilter

theorem Json.isNull_eq_true_iff {value : Json} : value.isNull = true ↔ value = .null := by
  constructor
  · intro h
    unfold Json.isNull at h
    split at h
    · rfl
    · cases h
  · rintro rfl
    rfl

namespace Schema

variable {s : Schema} {type : FieldType} {value : Json}

/-! ### Containers -/

theorem issuesOfMembers_eq_nil_iff {check : String → Json → List Issue}
    {members : List (String × Json)} :
    issuesOfMembers check members = [] ↔ ∀ m ∈ members, check m.1 m.2 = [] := by
  simp only [issuesOfMembers, List.flatMap_eq_nil_iff, List.map_eq_nil_iff]

theorem checkAlternatives_eq_nil_iff {items : List Json} (index : Nat) :
    s.checkAlternatives index items = [] ↔ ∀ item ∈ items, s.checkAlternative item = [] := by
  induction items generalizing index with
  | nil => simp [checkAlternatives]
  | cons item rest ih =>
    simp only [checkAlternatives, List.append_eq_nil_iff, List.map_eq_nil_iff, ih,
      List.forall_mem_cons]

/-! ### Fields -/

theorem checkOperand_eq_nil_iff {directive : String} :
    checkOperand type directive value = [] ↔
      (∃ op, Operator.ofDirective? directive = some op) ∧
        (value = .null ∨ type.accepts value = true) := by
  unfold checkOperand here
  rw [← Json.isNull_eq_true_iff, ← Option.isSome_iff_exists]
  cases Operator.ofDirective? directive <;> simp [or_iff_not_imp_left]

theorem checkField_eq_nil_iff :
    checkField type value = [] ↔ type.accepts value = true ∨
      ∃ directives, value = .object directives ∧
        ∀ d ∈ directives, checkOperand type d.1 d.2 = [] := by
  unfold checkField
  by_cases h : type.accepts value = true
  · simp [h]
  · rw [if_neg h]
    cases value with
    | object directives => simp [h, issuesOfMembers_eq_nil_iff]
    | scalar s => simp [h, here]
    | array items => simp [h, here]

theorem checkDeclared_eq_nil_iff {name : String} :
    s.checkDeclared name value = [] ↔
      ∃ type, s.type? name = some type ∧ checkField type value = [] := by
  unfold checkDeclared here
  cases s.type? name <;> simp

/-! ### Groups -/

theorem checkAlternative_eq_nil_iff :
    s.checkAlternative value = [] ↔ ∃ members, value = .object members ∧ members.length ≤ 1 ∧
      ∀ m ∈ members, s.checkDeclared m.1 m.2 = [] := by
  cases value with
  | object members =>
    simp only [checkAlternative, List.append_eq_nil_iff, issuesOfMembers_eq_nil_iff, here,
      ite_eq_right_iff, reduceCtorEq, imp_false, Nat.not_lt, Json.object.injEq,
      exists_eq_left']
  | scalar s => simp [checkAlternative, here]
  | array items => simp [checkAlternative, here]

theorem checkDisjunction_eq_nil_iff :
    s.checkDisjunction value = [] ↔
      ∃ items, value = .array items ∧ ∀ item ∈ items, s.checkAlternative item = [] := by
  cases value with
  | array items => simp [checkDisjunction, checkAlternatives_eq_nil_iff]
  | scalar s => simp [checkDisjunction, here]
  | object members => simp [checkDisjunction, here]

/-! ### The order of rows and the page -/

theorem checkBound_eq_nil_iff :
    checkBound value = [] ↔ value = .null ∨ ∃ n, value.toInt? = some n ∧ 0 ≤ n := by
  unfold checkBound here
  rw [← Json.isNull_eq_true_iff]
  cases value.isNull with
  | true => simp
  | false => cases value.toInt? <;> simp

theorem checkDirection_eq_nil_iff :
    checkDirection value = [] ↔ value.toInt? = some 1 ∨ value.toInt? = some (-1) := by
  unfold checkDirection here
  cases value.toInt? <;> simp [or_iff_not_imp_left]

theorem checkSort_eq_nil_iff :
    checkSort value = [] ↔ value = .null ∨
      ∃ members, value = .object members ∧ ∀ m ∈ members, checkDirection m.2 = [] := by
  unfold checkSort
  split
  · simp
  · simp [issuesOfMembers_eq_nil_iff]
  · rename_i hnull hobject
    simp only [here, List.cons_ne_nil, false_iff, not_or, not_exists, not_and]
    exact ⟨fun h ↦ hnull h, fun members h ↦ absurd h (hobject members)⟩

/-! ### Documents -/

theorem checkMember_of_disjunction {key : String} (h : MemberKind.ofKey key = .disjunction) :
    s.checkMember key value = s.checkDisjunction value := by
  unfold MemberKind.ofKey at h
  split_ifs at h with hpage hkey
  rw [checkMember, if_pos hkey]

theorem checkMember_of_field {key : String} (h : MemberKind.ofKey key = .field) :
    s.checkMember key value = s.checkDeclared key value := by
  unfold MemberKind.ofKey at h
  split_ifs at h with hpage hkey
  simp only [not_or] at hpage
  rw [checkMember, if_neg hkey, if_neg (not_or.mpr ⟨hpage.1, hpage.2.1⟩), if_neg hpage.2.2]

theorem checkMember_limitKey : s.checkMember MemberKind.limitKey value = checkBound value := rfl

theorem checkMember_skipKey : s.checkMember MemberKind.skipKey value = checkBound value := rfl

theorem checkMember_sortKey : s.checkMember MemberKind.sortKey value = checkSort value := rfl

theorem accepts_eq_true_iff {document : Json} :
    s.accepts document = true ↔ ∃ members, document = .object members ∧
      ∀ m ∈ members, s.checkMember m.1 m.2 = [] := by
  rw [accepts, List.isEmpty_iff]
  cases document with
  | object members => simp [check, issuesOfMembers_eq_nil_iff]
  | scalar s => simp [check, here]
  | array items => simp [check, here]

end Schema

end RowFilter
