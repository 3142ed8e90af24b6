import RowFilter.Proofs.Schema.Acceptance
import RowFilter.Proofs.Schema.Issues

/-!
No violation hides another. Where a check goes through the parts of a container, its report is the
concatenation of what it reports for each part as if that were the only one. `Schema.check_additive`
says so for the members of a filter, of a comparison object and of the order of rows, and for the
alternatives of a group. An alternative with several members has one issue more, which stands before
those of its members.
-/

set_option autoImplicit false

namespace RowFilter

/-- The issue of the only alternative of a group, as that of the alternative with the given
place. -/
def Issue.atItem (index : Nat) (i : Issue) : Issue :=
  { i with pointer := i.pointer.set 1 (toString index) }

theorem FieldType.accepts_object (type : FieldType) (members : List (String × Json)) :
    type.accepts (.object members) = false := by
  have hprimitive (t : PrimitiveType) : t.accepts (.object members) = false := by
    cases t <;> rfl
  cases type with
  | single t => exact hprimitive t
  | union ts => simp only [accepts, hprimitive, List.any_eq_false, implies_true, Bool.not_eq_true]

namespace Schema

/-! ### Reports on parts -/

/-- The report on several parts is the concatenation of the reports on single parts. -/
def Additive {α : Type} (report : List α → List Issue) : Prop :=
  ∀ parts, report parts = parts.flatMap fun p ↦ report [p]

theorem additive_flatMap {α : Type} (issues : α → List Issue) :
    Additive fun parts ↦ parts.flatMap issues := by
  intro parts
  simp only [List.flatMap_singleton]

theorem additive_issuesOfMembers (check : String → Json → List Issue) :
    Additive (issuesOfMembers check) :=
  additive_flatMap fun m : String × Json ↦ (check m.1 m.2).map (Issue.under m.1)

/-- The container of the container sees the same parts. -/
theorem Additive.under {α : Type} {report : List α → List Issue} (h : Additive report)
    (reference : String) : Additive fun parts ↦ (report parts).map (Issue.under reference) := by
  intro parts
  show (report parts).map _ = parts.flatMap fun p ↦ (report [p]).map _
  rw [h parts, List.map_flatMap]

theorem additive_checkField (type : FieldType) :
    Additive fun directives ↦ checkField type (.object directives) := by
  have hfield (directives : List (String × Json)) :
      checkField type (.object directives) = issuesOfMembers (checkOperand type) directives := by
    simp [checkField, type.accepts_object]
  simp only [hfield]
  exact additive_issuesOfMembers _

variable {s : Schema}

theorem additive_checkDeclared {name : String} {type : FieldType} (h : s.type? name = some type) :
    Additive fun directives ↦ s.checkDeclared name (.object directives) := by
  simp only [checkDeclared, h]
  exact additive_checkField type

/-! ### Documents with one member -/

theorem check_singleton (key : String) (value : Json) :
    s.check (.object [(key, value)]) = (s.checkMember key value).map (Issue.under key) :=
  List.flatMap_singleton ..

theorem check_group (items : List Json) :
    s.check (.object [("$or", .array items)]) =
      (s.checkAlternatives 0 items).map (Issue.under "$or") :=
  check_singleton "$or" (.array items)

theorem check_alternative (item : Json) :
    s.check (.object [("$or", .array [item])]) =
      ((s.checkAlternative item).map (Issue.under "0")).map (Issue.under "$or") := by
  rw [check_group, checkAlternatives, checkAlternatives, List.append_nil]
  rfl

theorem check_alternative_singleton (m : String × Json) :
    s.check (.object [("$or", .array [.object [m]])]) =
      ((issuesOfMembers s.checkDeclared [m]).map (Issue.under "0")).map (Issue.under "$or") :=
  check_alternative (.object [m])

/-- The alternatives of a group, each with its place for that of an only alternative. -/
theorem check_group_eq (items : List Json) :
    s.check (.object [("$or", .array items)]) = items.zipIdx.flatMap fun e ↦
      (s.check (.object [("$or", .array [e.1])])).map (Issue.atItem e.2) := by
  rw [check_group, checkAlternatives_eq, issuesOfMembers, List.flatMap_map, List.map_flatMap]
  refine List.flatMap_congr fun e _ ↦ ?_
  rw [check_alternative, List.map_map, List.map_map, List.map_map]
  rfl

/-- Too many members are one issue of their own, before those of the members. -/
theorem check_several (members : List (String × Json)) :
    s.check (.object [("$or", .array [.object members])]) =
      (if 1 < members.length then [⟨["$or", "0"], .severalMembers⟩] else []) ++
        members.flatMap fun m ↦ s.check (.object [("$or", .array [.object [m]])]) := by
  have hmembers : Additive fun ms ↦
      ((issuesOfMembers s.checkDeclared ms).map (Issue.under "0")).map (Issue.under "$or") :=
    ((additive_issuesOfMembers s.checkDeclared).under "0").under "$or"
  have hseveral : ((if members.length > 1 then here .severalMembers else []).map
      (Issue.under "0")).map (Issue.under "$or") =
        if 1 < members.length then [⟨["$or", "0"], .severalMembers⟩] else [] := by
    split <;> rfl
  rw [check_alternative, checkAlternative, List.map_append, List.map_append, hseveral]
  simp only [check_alternative_singleton]
  exact congrArg (_ ++ ·) (hmembers members)

/-- The report on a filter is the concatenation of the reports on its members, each as the only
member, and likewise for the alternatives of a group, each of which then takes the place of the only
one in the pointers. An alternative with several members has the issues of each of them behind one
of its own. The report on comparisons of a declared field, at the top or in a group, and the report
on the order of rows are the concatenation of those on their members. -/
theorem check_additive (s : Schema) :
    Additive (fun members ↦ s.check (.object members)) ∧
      (∀ items, s.check (.object [("$or", .array items)]) = items.zipIdx.flatMap fun e ↦
        (s.check (.object [("$or", .array [e.1])])).map (Issue.atItem e.2)) ∧
      (∀ members, s.check (.object [("$or", .array [.object members])]) =
        (if 1 < members.length then [⟨["$or", "0"], .severalMembers⟩] else []) ++
          members.flatMap fun m ↦ s.check (.object [("$or", .array [.object [m]])])) ∧
      (∀ name type, s.type? name = some type →
        (MemberKind.ofKey name = .field →
            Additive fun directives ↦ s.check (.object [(name, .object directives)])) ∧
          Additive fun directives ↦
            s.check (.object [("$or", .array [.object [(name, .object directives)]])])) ∧
      Additive fun terms ↦ s.check (.object [("$sort", .object terms)]) := by
  refine ⟨additive_issuesOfMembers s.checkMember, check_group_eq, check_several,
    fun name type hname ↦ ⟨fun hfield ↦ ?_, ?_⟩, ?_⟩
  · simp only [check_singleton, checkMember_of_field hfield]
    exact (additive_checkDeclared hname).under name
  · simp only [check_alternative_singleton, issuesOfMembers, List.flatMap_singleton]
    exact (((additive_checkDeclared hname).under name).under "0").under "$or"
  · simp only [check_singleton]
    exact (additive_issuesOfMembers fun _ ↦ checkDirection).under "$sort"

/-- Two faults of one comparison object and two members of one alternative. -/
theorem check_additive_of_faults :
    let s := Schema.empty.declare "a" (.single .integer)
    let comparisons : Json := .object [("$gt", .string ""), ("$no", .null)]
    ((s.check (.object [("a", comparisons), ("$or", .array [.null,
        .object [("a", comparisons), ("b", .null)]])])).map fun i ↦ i.pointer.text) =
      ["/a/$gt", "/a/$no", "/$or/0", "/$or/1", "/$or/1/a/$gt", "/$or/1/a/$no", "/$or/1/b"] ∧
      s.check (.object [("a", comparisons)]) =
        s.check (.object [("a", .object [("$gt", .string "")])]) ++
          s.check (.object [("a", .object [("$no", .null)])]) ∧
      s.check (.object [("$or", .array [.object [("a", comparisons)]])]) =
        s.check (.object [("$or", .array [.object [("a", .object [("$gt", .string "")])]])]) ++
          s.check (.object [("$or", .array [.object [("a", .object [("$no", .null)])]])]) := by
  intro s comparisons
  have hdeclared := (check_additive s).2.2.2.1 "a" (.single .integer) rfl
  exact ⟨by decide, hdeclared.1 (by decide) _, hdeclared.2 _⟩

end Schema

end RowFilter
