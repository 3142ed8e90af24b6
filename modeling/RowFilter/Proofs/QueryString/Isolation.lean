import RowFilter.Proofs.Filter.FieldName
import RowFilter.Proofs.QueryString.Parameters
import RowFilter.Proofs.QueryString.Spelling
import RowFilter.Proofs.QueryString.WellFormed

/-!
Pairs of different roots do not meet. What a query string gives under a root is what the pairs of
this root give by themselves, in their order and with whatever stands between them, and the roots
come in the order in which a pair of each is first kept (`decode_isolates_roots`).
-/

set_option autoImplicit false

namespace RowFilter

/-- The value of an object under a name. -/
def Json.member? (name : String) : Json → Option Json
  | .object members => Assoc.get? name members
  | _ => none

theorem Json.member?_ne_none_iff {name : String} {members : List (String × Json)} :
    (Json.object members).member? name ≠ none ↔ name ∈ (Json.object members).memberNames := by
  rw [Json.member?, Ne, Assoc.get?_eq_none_iff, Json.memberNames, List.mem_map]
  push Not
  rfl

namespace QueryString

/-! ### Roots of pairs -/

/-- The pair has a name, and the root of the name is the given one. -/
def HasRoot (root : String) (pair : String × String) : Prop :=
  pair.1 ≠ "" ∧ (Path.ofName pair.1).root = root

instance (root : String) : DecidablePred (HasRoot root) :=
  fun pair ↦ inferInstanceAs (Decidable (pair.1 ≠ "" ∧ (Path.ofName pair.1).root = root))

/-- The root of a pair that is kept. -/
def keptRoot? (pair : String × String) : Option String :=
  (Parameter.ofPair? pair).map fun p ↦ p.path.root

theorem Parameter.hasRoot_of_ofPair? {pair : String × String} {p : Parameter}
    (h : Parameter.ofPair? pair = some p) (root : String) :
    HasRoot root pair ↔ p.path.root = root := by
  unfold Parameter.ofPair? at h
  split at h
  · cases h
  · rename_i hname
    obtain ⟨value, -, rfl⟩ := Option.map_eq_some_iff.mp h
    exact and_iff_right hname

theorem filterMap_filter_hasRoot (root : String) (ps : List (String × String)) :
    (ps.filter (HasRoot root)).filterMap Parameter.ofPair? =
      (ps.filterMap Parameter.ofPair?).filter fun p ↦ p.path.root = root := by
  rw [List.filterMap_filter, List.filter_filterMap]
  refine List.filterMap_congr fun pair _ ↦ ?_
  cases hpair : Parameter.ofPair? pair with
  | none => simp
  | some p => simp [Option.filter, Parameter.hasRoot_of_ofPair? hpair]

/-- Some pair of the root is kept exactly when the root is that of a kept pair. -/
theorem mem_keptRoots_iff {root : String} {ps : List (String × String)} :
    root ∈ ps.filterMap keptRoot? ↔
      ∃ pair ∈ ps, HasRoot root pair ∧ Parameter.ofPair? pair ≠ none := by
  rw [List.mem_filterMap]
  refine exists_congr fun pair ↦ and_congr_right fun _ ↦ ?_
  unfold keptRoot?
  cases hpair : Parameter.ofPair? pair with
  | none => simp
  | some p => simp [Parameter.hasRoot_of_ofPair? hpair]

/-! ### What is decoded under a root -/

theorem leavesUnder_filter (root : String) (ps : List Parameter) :
    leavesUnder root (ps.filter fun p ↦ p.path.root = root) = leavesUnder root ps := by
  rw [leavesUnder, List.filter_filter]
  simp only [Bool.and_self]
  rfl

theorem member?_decode (query root : String) :
    (decode query).member? root =
      (grow (leavesUnder root (parameters query)) none).map Node.toJson := by
  rw [decode, Tree.toJson, Json.member?, get?_memberValues, Tree.get?_ofParameters]

theorem memberNames_decode (query : String) :
    (decode query).memberNames = ((parameters query).map fun p ↦ p.path.root).eraseDups := by
  rw [decode, Tree.toJson, Json.memberNames, map_fst_memberValues, Tree.ofParameters_eq,
    Assoc.keys_foldl_alter (fun p : Parameter ↦ p.path.root)]

/-- The pairs of a root can be decoded by themselves, and then they give the value that they give
among all others. The root is present exactly when one of its pairs is kept, and the names stand in
the order of the first kept pairs. -/
theorem decode_isolates_roots {query : String} (hlength : (pairs query).length ≤ 1000)
    (root : String) :
    (∃ own, pairs own = (pairs query).filter (HasRoot root)) ∧
      (∀ own, pairs own = (pairs query).filter (HasRoot root) →
        (decode query).member? root = (decode own).member? root) ∧
      ((decode query).member? root ≠ none ↔
        ∃ pair ∈ pairs query, HasRoot root pair ∧ Parameter.ofPair? pair ≠ none) ∧
      (decode query).memberNames = ((pairs query).filterMap keptRoot?).eraseDups := by
  have hroots : (parameters query).map (fun p ↦ p.path.root) =
      (pairs query).filterMap keptRoot? := by
    rw [parameters_eq hlength, List.map_filterMap]
    rfl
  have hnames := memberNames_decode query
  rw [hroots] at hnames
  refine ⟨?_, fun own hown ↦ ?_, ?_, hnames⟩
  · obtain ⟨own, hown⟩ := exists_spellsPairs ((pairs query).filter (HasRoot root))
    exact ⟨own, map_pairOf_pieces hown⟩
  · have hownLength : (pairs own).length ≤ 1000 := by
      rw [hown]
      exact Nat.le_trans (List.length_filter_le _ _) hlength
    rw [member?_decode, member?_decode, parameters_eq hownLength, hown, filterMap_filter_hasRoot,
      leavesUnder_filter, parameters_eq hlength]
  · obtain ⟨members, hdecode, -⟩ := exists_decode_eq_object query
    rw [← mem_keptRoots_iff, ← List.mem_eraseDups, ← hnames, hdecode]
    exact Json.member?_ne_none_iff

theorem decode_isolates_roots_among_others :
    (pairs "a=1&b[c]=2&=9&a[]=undefined&a[x]=3").length ≤ 1000 ∧
      (decode "a=1&b[c]=2&=9&a[]=undefined&a[x]=3").member? "a" =
        (decode "a=1&a[]=undefined&a[x]=3").member? "a" ∧
      (decode "a=1&b[c]=2&=9&a[]=undefined&a[x]=3").memberNames = ["a", "b"] := by
  have hlength : (pairs "a=1&b[c]=2&=9&a[]=undefined&a[x]=3").length ≤ 1000 := by decide
  obtain ⟨-, hvalue, -, hnames⟩ := decode_isolates_roots hlength "a"
  exact ⟨hlength, hvalue _ (by decide), hnames.trans (by decide)⟩

end QueryString

end RowFilter
