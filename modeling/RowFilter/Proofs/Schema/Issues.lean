import RowFilter.Proofs.Filter.Writing
import RowFilter.Proofs.Json.Pointer
import RowFilter.Schema.Check

/-!
Where issues point. The issues of a part lead to values inside the part, no two of them to the same
one, and seen from the container they keep this under the reference of the part
(`Located.issuesOfMembers`). From the checks of single values upwards this gives it for the whole
report: the pointer of every issue, read back from its text, leads to a value of the document of
which the issue says what is so, and no two issues have one text (`Schema.pointers_of_check`).
-/

set_option autoImplicit false

namespace RowFilter

/-- What an issue says is so of the value. An unknown member is wrong by its name, whatever its
value is. -/
def Violation.Holds (value : Json) : Violation → Prop
  | .notObject => ∀ members, value ≠ .object members
  | .notArray => ∀ items, value ≠ .array items
  | .severalMembers => ∃ members, value = .object members ∧ 1 < members.length
  | .unknownMember => True
  | .neitherTypeNorComparison type =>
    type.accepts value = false ∧ ∀ members, value ≠ .object members
  | .notOfType type => value ≠ .null ∧ type.accepts value = false
  | .notInteger => value.toInt? = none
  | .negative => ∃ n, value.toInt? = some n ∧ n < 0
  | .notAllowed => ∃ n, value.toInt? = some n ∧ n ≠ 1 ∧ n ≠ -1

/-- Every issue leads to a value inside the given one of which it holds, and no two issues lead the
same way. -/
structure Located (issues : List Issue) (value : Json) : Prop where
  resolve : ∀ i ∈ issues, ∃ part, value.resolve? i.pointer = some part ∧ i.violation.Holds part
  nodup : (issues.map Issue.pointer).Nodup

namespace Located

variable {value : Json}

theorem nil : Located [] value := ⟨List.forall_mem_nil _, List.nodup_nil⟩

theorem here {v : Violation} (h : v.Holds value) : Located (Schema.here v) value :=
  ⟨List.forall_mem_singleton.mpr ⟨value, rfl, h⟩, List.nodup_singleton _⟩

theorem pointer_ne_nil_of_mem {check : String → Json → List Issue} {parts : List (String × Json)}
    {i : Issue} (h : i ∈ Schema.issuesOfMembers check parts) : i.pointer ≠ [] := by
  obtain ⟨m, -, hi⟩ := List.mem_flatMap.mp h
  obtain ⟨inner, -, rfl⟩ := List.mem_map.mp hi
  exact List.cons_ne_nil _ _

/-- Parts under different references keep their issues apart. -/
theorem issuesOfMembers {check : String → Json → List Issue} {parts : List (String × Json)}
    (hnodup : (parts.map Prod.fst).Nodup) (hchild : ∀ m ∈ parts, value.child? m.1 = some m.2)
    (h : ∀ m ∈ parts, Located (check m.1 m.2) m.2) :
    Located (Schema.issuesOfMembers check parts) value where
  resolve := by
    intro i hi
    obtain ⟨m, hm, hi⟩ := List.mem_flatMap.mp hi
    obtain ⟨inner, hinner, rfl⟩ := List.mem_map.mp hi
    obtain ⟨part, hpart, hholds⟩ := (h m hm).resolve inner hinner
    refine ⟨part, ?_, hholds⟩
    show (value.child? m.1).bind (Json.resolve? inner.pointer) = some part
    rw [hchild m hm, Option.bind_some, hpart]
  nodup := by
    have hpointers : (Schema.issuesOfMembers check parts).map Issue.pointer =
        parts.flatMap fun m ↦ ((check m.1 m.2).map Issue.pointer).map (m.1 :: ·) := by
      simp only [Schema.issuesOfMembers, List.map_flatMap, List.map_map]
      rfl
    rw [hpointers, List.nodup_flatMap]
    constructor
    · intro m hm
      exact (h m hm).nodup.map (List.cons_injective)
    · refine (List.pairwise_map.mp hnodup).imp fun {m n} hne ↦ ?_
      rintro pointer hm hn
      obtain ⟨_, -, rfl⟩ := List.mem_map.mp hm
      obtain ⟨_, -, heq⟩ := List.mem_map.mp hn
      exact hne (List.cons.inj heq).1.symm

theorem members {check : String → Json → List Issue} {members : List (String × Json)}
    (hdistinct : (Json.object members).Distinct)
    (h : ∀ m ∈ members, Located (check m.1 m.2) m.2) :
    Located (Schema.issuesOfMembers check members) (.object members) :=
  issuesOfMembers hdistinct.nodup_names
    (fun _ hm ↦ (Assoc.get?_eq_some_iff_mem hdistinct.nodup_names).mpr hm) h

end Located

namespace Schema

variable {s : Schema} {type : FieldType} {value : Json}

/-! ### Fields -/

theorem located_checkOperand (directive : String) :
    Located (checkOperand type directive value) value := by
  unfold checkOperand
  split_ifs with hdirective hvalue
  · exact .here trivial
  · exact .nil
  · rw [Bool.or_eq_true, not_or, Bool.not_eq_true, Bool.not_eq_true] at hvalue
    refine .here ⟨?_, hvalue.2⟩
    rintro rfl
    exact absurd hvalue.1 (by decide)

theorem located_checkField (hvalue : value.Distinct) : Located (checkField type value) value := by
  unfold checkField
  by_cases haccepts : type.accepts value = true
  · rw [if_pos haccepts]
    exact .nil
  · rw [if_neg haccepts]
    split
    · exact .members hvalue fun m _ ↦ located_checkOperand m.1
    · rename_i hobject
      exact .here ⟨by simpa using haccepts, hobject⟩

theorem located_checkDeclared (name : String) (hvalue : value.Distinct) :
    Located (s.checkDeclared name value) value := by
  unfold checkDeclared
  split
  · exact located_checkField hvalue
  · exact .here trivial

/-! ### Groups -/

theorem located_checkAlternative (hvalue : value.Distinct) :
    Located (s.checkAlternative value) value := by
  unfold checkAlternative
  split
  · rename_i members
    have hmembers : Located (issuesOfMembers s.checkDeclared members) (.object members) :=
      .members hvalue fun m hm ↦ located_checkDeclared m.1 (hvalue.member m hm)
    by_cases hseveral : 1 < members.length
    · have hhere : Located (here .severalMembers) (.object members) :=
        .here ⟨members, rfl, hseveral⟩
      rw [if_pos hseveral]
      refine ⟨List.forall_mem_append.mpr ⟨hhere.resolve, hmembers.resolve⟩, ?_⟩
      rw [List.map_append]
      refine List.nodup_cons.mpr ⟨fun hmem ↦ ?_, hmembers.nodup⟩
      obtain ⟨i, hi, hnil⟩ := List.mem_map.mp hmem
      exact Located.pointer_ne_nil_of_mem hi hnil
    · rwa [if_neg hseveral]
  · rename_i hobject
    exact .here hobject

/-- The alternatives of a group with their places written as references. -/
theorem checkAlternatives_eq (index : Nat) (items : List Json) :
    s.checkAlternatives index items =
      issuesOfMembers (fun _ ↦ s.checkAlternative)
        ((items.zipIdx index).map fun e ↦ (toString e.2, e.1)) := by
  induction items generalizing index with
  | nil => rfl
  | cons item rest ih =>
    rw [checkAlternatives, ih, List.zipIdx_cons]
    rfl

theorem located_checkDisjunction (hvalue : value.Distinct) :
    Located (s.checkDisjunction value) value := by
  unfold checkDisjunction
  split
  · rename_i items
    rw [checkAlternatives_eq]
    refine .issuesOfMembers ?_ ?_ ?_
    · have hplaces : (items.zipIdx.map Prod.snd).Nodup := by
        rw [List.zipIdx_map_snd]
        exact List.nodup_range'
      have hreferences : ((items.zipIdx.map Prod.snd).map toString).Nodup :=
        hplaces.map Decimal.toString_injective
      rwa [List.map_map] at hreferences ⊢
    · refine List.forall_mem_map.mpr fun e he ↦ ?_
      exact (Json.child?_array items e.2).trans (List.mem_zipIdx_iff_getElem?.mp he)
    · refine List.forall_mem_map.mpr fun e he ↦ ?_
      have hitem : e.1 ∈ items := List.mem_of_getElem? (List.mem_zipIdx_iff_getElem?.mp he)
      exact located_checkAlternative (hvalue.item _ hitem)
  · rename_i harray
    exact .here harray

/-! ### The order of rows and the page -/

theorem located_checkBound : Located (checkBound value) value := by
  unfold checkBound
  split_ifs
  · exact .nil
  · split
    · rename_i hnone
      exact .here hnone
    · rename_i n hn
      split_ifs with hnegative
      · exact .here ⟨n, hn, hnegative⟩
      · exact .nil

theorem located_checkDirection : Located (checkDirection value) value := by
  unfold checkDirection
  split
  · rename_i hnone
    exact .here hnone
  · rename_i n hn
    split_ifs with hallowed
    · exact .nil
    · exact .here ⟨n, hn, not_or.mp hallowed⟩

theorem located_checkSort (hvalue : value.Distinct) : Located (checkSort value) value := by
  unfold checkSort
  split
  · exact .nil
  · exact .members hvalue fun _ _ ↦ located_checkDirection
  · rename_i hobject
    exact .here hobject

/-! ### Documents -/

theorem located_checkMember (key : String) (hvalue : value.Distinct) :
    Located (s.checkMember key value) value := by
  unfold checkMember
  split_ifs
  · exact located_checkDisjunction hvalue
  · exact located_checkBound
  · exact located_checkSort hvalue
  · exact located_checkDeclared key hvalue

theorem located_check {document : Json} (hdocument : document.Distinct) :
    Located (s.check document) document := by
  unfold check
  split
  · exact .members hdocument fun m hm ↦ located_checkMember m.1 (hdocument.member m hm)
  · rename_i hobject
    exact .here hobject

/-- The pointer of every issue of a report, read back from its text, leads to a value inside the
document, and what the issue says is so of this value. No two issues of a report have the same text
for their pointers. -/
theorem pointers_of_check {document : Json} (hdocument : document.Distinct) :
    (∀ i ∈ s.check document, ∃ pointer value, Pointer.ofText? i.pointer.text = some pointer ∧
        document.resolve? pointer = some value ∧ i.violation.Holds value) ∧
      ((s.check document).map fun i ↦ i.pointer.text).Nodup := by
  have hlocated : Located (s.check document) document := located_check hdocument
  constructor
  · intro i hi
    obtain ⟨value, hvalue, hholds⟩ := hlocated.resolve i hi
    exact ⟨i.pointer, value, Pointer.ofText?_text i.pointer, hvalue, hholds⟩
  · have htexts := hlocated.nodup.map Pointer.text_injective
    rwa [List.map_map] at htexts

theorem pointers_of_check_with_escapes :
    let s := (Schema.empty.declare "a/b" (.single .integer)).declare "~1" (.single .string)
    let group : Json := .array [.null, .object [("~", .null), ("a/b", .int 0), ("/", .null)]]
    let document : Json := .object [("a/b", .string ""),
      ("~1", .object [("$gt", .int 1), ("$or", .null)]), ("$or", group), ("", .null)]
    document.Distinct ∧
      ((s.check document).map fun i ↦ i.pointer.text) =
        ["/a~1b", "/~01/$gt", "/~01/$or", "/$or/0", "/$or/1", "/$or/1/~0", "/$or/1/~1", "/"] ∧
      (∀ i ∈ s.check document, ∃ pointer value, Pointer.ofText? i.pointer.text = some pointer ∧
        document.resolve? pointer = some value ∧ i.violation.Holds value) ∧
      ((s.check document).map fun i ↦ i.pointer.text).Nodup := by
  intro s group document
  have hscalars {members : List (String × Json)} (hnodup : (members.map Prod.fst).Nodup)
      (h : ∀ m ∈ members, ∃ t, m.2 = .scalar t) : (Json.object members).Distinct := by
    refine .object hnodup fun m hm ↦ ?_
    obtain ⟨t, ht⟩ := h m hm
    exact ht ▸ .scalar t
  have hgroup : group.Distinct := by
    refine .array (List.forall_mem_cons.mpr ⟨.scalar _, List.forall_mem_singleton.mpr ?_⟩)
    exact hscalars (by decide) (by simp)
  have hdistinct : document.Distinct := by
    refine .object (by decide) ?_
    simp only [List.forall_mem_cons]
    exact ⟨.scalar _, hscalars (by decide) (by simp), hgroup, .scalar _, List.forall_mem_nil _⟩
  exact ⟨hdistinct, by decide, pointers_of_check hdistinct⟩

end Schema

end RowFilter
