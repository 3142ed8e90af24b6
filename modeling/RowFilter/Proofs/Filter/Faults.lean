import RowFilter.Proofs.Filter.Reading

/-!
The faults of a document. All of them are listed, also those that reading never comes to: member by
member in document order, and behind all conditions those of the bounds and of the order. Each
function that reads a part stops at the first fault of this part and succeeds where there is none
(`StopsAtFirst`), and this passes from the parts to the whole, so a document is a filter exactly when
it has no fault, and otherwise its first fault is the error.
-/

set_option autoImplicit false

namespace RowFilter

/-! ### Stopping at the first fault -/

section StopsAtFirst

variable {ε α β : Type}

/-- A result where the list is empty, and otherwise its first item as the error. -/
inductive StopsAtFirst : List ε → Except ε α → Prop
  | ok (a : α) : StopsAtFirst [] (.ok a)
  | error (e : ε) (rest : List ε) : StopsAtFirst (e :: rest) (.error e)

namespace StopsAtFirst

variable {es es' : List ε} {x : Except ε α}

theorem map (h : StopsAtFirst es x) (f : α → β) : StopsAtFirst es (x.map f) := by
  cases h with
  | ok a => exact .ok (f a)
  | error e rest => exact .error e rest

/-- What comes later can only fail if nothing before it did. -/
theorem bind {f : α → Except ε β} (h : StopsAtFirst es x)
    (hf : ∀ a, x = .ok a → StopsAtFirst es' (f a)) : StopsAtFirst (es ++ es') (x >>= f) := by
  cases h with
  | ok a => exact hf a rfl
  | error e rest => exact .error e (rest ++ es')

theorem bind_ok (h : StopsAtFirst es x) (f : α → β) :
    StopsAtFirst es (x >>= fun a ↦ .ok (f a)) := by
  cases h with
  | ok a => exact .ok (f a)
  | error e rest => exact .error e rest

theorem cons {as : Except ε (List α)} (h : StopsAtFirst es x) (hrest : StopsAtFirst es' as) :
    StopsAtFirst (es ++ es') (do return (← x) :: (← as)) :=
  h.bind fun a _ ↦ hrest.bind_ok (a :: ·)

theorem mapM {f : α → Except ε β} {faults : α → List ε} (h : ∀ a, StopsAtFirst (faults a) (f a))
    (as : List α) : StopsAtFirst (as.flatMap faults) (as.mapM f) := by
  induction as with
  | nil => exact .ok []
  | cons a rest ih =>
    rw [List.flatMap_cons, List.mapM_cons]
    exact (h a).cons ih

theorem exists_ok_iff (h : StopsAtFirst es x) : (∃ a, x = .ok a) ↔ es = [] := by
  cases h with
  | ok a => exact iff_of_true ⟨a, rfl⟩ rfl
  | error e rest =>
    refine iff_of_false ?_ (List.cons_ne_nil e rest)
    rintro ⟨a, ha⟩
    cases ha

theorem eq_error_iff (h : StopsAtFirst es x) (e : ε) : x = .error e ↔ es.head? = some e := by
  cases h with
  | ok a => exact iff_of_false nofun nofun
  | error first rest => rw [List.head?_cons, Except.error.injEq, Option.some.injEq]

end StopsAtFirst

end StopsAtFirst

/-! ### Faults -/

namespace Json

def nameFaults (name : String) : List FilterError :=
  if isIdentifier name then [] else [.invalidFieldName name]

/-- An operand is only looked at under a known directive. -/
def directiveFaults (field : String) (member : String × Json) : List FilterError :=
  if member.1 ∈ Operator.all.map Operator.directive then
    match member.2 with
    | .scalar _ => []
    | _ => [.invalidFieldValue field]
  else [.invalidOperator member.1]

/-- The faults of the value of a field. -/
def valueFaults (field : String) : Json → List FilterError
  | .scalar _ => []
  | .array _ => [.invalidFieldValue field]
  | .object directives => directives.flatMap (directiveFaults field)

def conditionFaults (member : String × Json) : List FilterError :=
  nameFaults member.1 ++ valueFaults member.1 member.2

/-- The faults of the alternative at a place of a group. -/
def alternativeFaults (item : Json) (index : Nat) : List FilterError :=
  match item with
  | .object [member] => conditionFaults member
  | _ => [.invalidDisjunctionEntry index]

def disjunctionFaults : Json → List FilterError
  | .null => []
  | .array items => items.zipIdx.flatMap fun e ↦ alternativeFaults e.1 e.2
  | _ => [.invalidDisjunction]

/-- The faults of a member as a condition; the paging directives are looked at behind all. -/
def memberFaults (member : String × Json) : List FilterError :=
  match MemberKind.ofKey member.1 with
  | .pagination => []
  | .disjunction => disjunctionFaults member.2
  | .field => conditionFaults member

/-- The fault of a bound, if it is there. -/
def boundFaults (key : String) (members : List (String × Json)) : List FilterError :=
  match Assoc.get? key members with
  | none => []
  | some (.scalar _) => []
  | some _ => [.invalidPagination key]

/-- The fault of an order: of its names, the first that is no identifier. -/
def sortFaults : Json → List FilterError
  | .null => []
  | .object members =>
    ((members.map Prod.fst).find? fun name ↦ !isIdentifier name).toList.map .invalidSortField
  | _ => [.invalidSort]

def pageFaults (members : List (String × Json)) : List FilterError :=
  boundFaults MemberKind.limitKey members ++ boundFaults MemberKind.skipKey members ++
    ((Assoc.get? MemberKind.sortKey members).map sortFaults).getD []

/-- The faults of a filter document, in the order in which they are looked for. -/
def faults : Json → List FilterError
  | .object members => members.flatMap memberFaults ++ pageFaults members
  | _ => [.notAnObject]

end Json

/-! ### Conditions -/

theorem Identifier.stopsAtFirst_ofFieldName (name : String) :
    StopsAtFirst (Json.nameFaults name) (Identifier.ofFieldName name) := by
  unfold Json.nameFaults Identifier.ofFieldName
  split
  · rename_i hname
    obtain ⟨field, hfield⟩ := Identifier.exists_ofString? hname
    rw [hfield]
    exact .ok field
  · rename_i hname
    rw [Identifier.ofString?_eq_none_iff.mpr (eq_false_of_ne_true hname)]
    exact .error _ []

theorem Operator.exists_ofDirective?_iff {text : String} :
    (∃ op, Operator.ofDirective? text = some op) ↔ text ∈ Operator.all.map Operator.directive := by
  rw [List.mem_map]
  constructor
  · rintro ⟨op, h⟩
    exact ⟨op, op.mem_all, Operator.directive_of_ofDirective? h⟩
  · rintro ⟨op, -, rfl⟩
    exact ⟨op, Operator.ofDirective?_directive op⟩

theorem Comparison.stopsAtFirst_ofMember (field : Identifier) (member : String × Json) :
    StopsAtFirst (Json.directiveFaults field.text member) (Comparison.ofMember field member) := by
  obtain ⟨directive, value⟩ := member
  unfold Json.directiveFaults Comparison.ofMember
  split
  · rename_i hknown
    obtain ⟨op, hop⟩ := Operator.exists_ofDirective?_iff.mpr hknown
    rw [hop]
    cases value with
    | scalar s => exact .ok (Comparison.mk op s)
    | array items => exact .error _ []
    | object members => exact .error _ []
  · rename_i hunknown
    have hnone : Operator.ofDirective? directive = none :=
      Option.eq_none_iff_forall_ne_some.mpr fun op hop ↦
        hunknown (Operator.exists_ofDirective?_iff.mp ⟨op, hop⟩)
    rw [hnone]
    exact .error _ []

theorem Condition.stopsAtFirst_ofJson (field : Identifier) (value : Json) :
    StopsAtFirst (value.valueFaults field.text) (Condition.ofJson field value) := by
  cases value with
  | scalar s => exact .ok (Condition.ofScalar s)
  | array items => exact .error _ []
  | object directives =>
    exact (StopsAtFirst.mapM (Comparison.stopsAtFirst_ofMember field) directives).map _

theorem FieldCondition.stopsAtFirst_ofMember (member : String × Json) :
    StopsAtFirst (Json.conditionFaults member) (FieldCondition.ofMember member) := by
  refine (Identifier.stopsAtFirst_ofFieldName member.1).bind fun field hfield ↦ ?_
  have hname : field.text = member.1 := Identifier.text_of_ofFieldName hfield
  rw [← hname]
  exact (Condition.stopsAtFirst_ofJson field member.2).bind_ok (FieldCondition.mk field)

/-! ### Groups -/

theorem FieldCondition.stopsAtFirst_ofAlternative (index : Nat) (item : Json) :
    StopsAtFirst (item.alternativeFaults index) (FieldCondition.ofAlternative index item) := by
  cases item with
  | scalar s => exact .error _ []
  | array items => exact .error _ []
  | object members =>
    match members with
    | [] => exact .error _ []
    | [member] => exact FieldCondition.stopsAtFirst_ofMember member
    | _ :: _ :: _ => exact .error _ []

theorem FieldCondition.stopsAtFirst_ofAlternatives (index : Nat) (items : List Json) :
    StopsAtFirst ((items.zipIdx index).flatMap fun e ↦ e.1.alternativeFaults e.2)
      (FieldCondition.ofAlternatives index items) := by
  induction items generalizing index with
  | nil => exact .ok []
  | cons item rest ih =>
    rw [List.zipIdx_cons, List.flatMap_cons]
    exact (FieldCondition.stopsAtFirst_ofAlternative index item).cons (ih (index + 1))

theorem FieldCondition.stopsAtFirst_ofDisjunction (value : Json) :
    StopsAtFirst value.disjunctionFaults (FieldCondition.ofDisjunction value) := by
  cases value with
  | scalar s =>
    cases s with
    | null => exact .ok none
    | bool b => exact .error _ []
    | number n => exact .error _ []
    | string t => exact .error _ []
  | array items => exact (FieldCondition.stopsAtFirst_ofAlternatives 0 items).map some
  | object members => exact .error _ []

theorem Entry.stopsAtFirst_ofMember (member : String × Json) :
    StopsAtFirst (Json.memberFaults member) (Entry.ofMember member) := by
  unfold Json.memberFaults Entry.ofMember
  cases MemberKind.ofKey member.1 with
  | pagination => exact .ok none
  | disjunction => exact (FieldCondition.stopsAtFirst_ofDisjunction member.2).map _
  | field => exact (FieldCondition.stopsAtFirst_ofMember member).map _

/-! ### The page -/

theorem Pagination.stopsAtFirst_bound (key : String) (members : List (String × Json)) :
    StopsAtFirst (Json.boundFaults key members) (Pagination.bound key members) := by
  unfold Json.boundFaults Pagination.bound
  cases Assoc.get? key members with
  | none => exact .ok none
  | some value =>
    cases value with
    | scalar s => exact .ok (some s)
    | array items => exact .error _ []
    | object inner => exact .error _ []

theorem SortTerm.stopsAtFirst_mapM (members : List (String × Json)) :
    StopsAtFirst (Json.object members).sortFaults (members.mapM SortTerm.ofMember) := by
  -- Of the names only the first fault is listed, so `StopsAtFirst.mapM` does not apply.
  induction members with
  | nil => exact .ok []
  | cons member rest ih =>
    rw [List.mapM_cons]
    by_cases hname : isIdentifier member.1 = true
    · obtain ⟨field, hfield⟩ := Identifier.exists_ofString? hname
      have hfaults : (Json.object (member :: rest)).sortFaults = (Json.object rest).sortFaults := by
        simp [Json.sortFaults, hname]
      have hterm : SortTerm.ofMember member = .ok ⟨field, Direction.ofJson member.2⟩ := by
        rw [SortTerm.ofMember, hfield]
      rw [hfaults, hterm]
      exact (StopsAtFirst.ok (SortTerm.mk field (Direction.ofJson member.2))).cons ih
    · have hfalse := eq_false_of_ne_true hname
      have hfaults : (Json.object (member :: rest)).sortFaults = [.invalidSortField member.1] := by
        simp [Json.sortFaults, hfalse]
      have hterm : SortTerm.ofMember member = .error (.invalidSortField member.1) := by
        rw [SortTerm.ofMember, Identifier.ofString?_eq_none_iff.mpr hfalse]
      rw [hfaults, hterm]
      exact .error _ []

theorem SortTerm.stopsAtFirst_ofJson (value : Json) :
    StopsAtFirst value.sortFaults (SortTerm.ofJson value) := by
  cases value with
  | scalar s =>
    cases s with
    | null => exact .ok []
    | bool b => exact .error _ []
    | number n => exact .error _ []
    | string t => exact .error _ []
  | array items => exact .error _ []
  | object members => exact SortTerm.stopsAtFirst_mapM members

theorem Pagination.stopsAtFirst_ofMembers (members : List (String × Json)) :
    StopsAtFirst (Json.pageFaults members) (Pagination.ofMembers members) := by
  rw [Json.pageFaults, List.append_assoc]
  refine (Pagination.stopsAtFirst_bound MemberKind.limitKey members).bind fun limit _ ↦ ?_
  refine (Pagination.stopsAtFirst_bound MemberKind.skipKey members).bind fun skip _ ↦ ?_
  cases Assoc.get? MemberKind.sortKey members with
  | none => exact .ok (Pagination.mk limit skip [])
  | some value =>
    exact (SortTerm.stopsAtFirst_ofJson value).bind_ok (Pagination.mk limit skip)

/-! ### Documents -/

theorem Json.notAnObject_notMem_conditionFaults (member : String × Json) :
    .notAnObject ∉ Json.conditionFaults member := by
  have hname : .notAnObject ∉ Json.nameFaults member.1 := by
    unfold Json.nameFaults
    split <;> simp
  have hdirective (d : String × Json) : .notAnObject ∉ Json.directiveFaults member.1 d := by
    unfold Json.directiveFaults
    split
    · split <;> simp
    · simp
  have hvalue : .notAnObject ∉ member.2.valueFaults member.1 := by
    unfold Json.valueFaults
    split
    · simp
    · simp
    · simpa using fun name value _ ↦ hdirective (name, value)
  exact fun h ↦ (List.mem_append.mp h).elim hname hvalue

theorem Json.notAnObject_notMem_memberFaults (member : String × Json) :
    .notAnObject ∉ Json.memberFaults member := by
  have halternative (item : Json) (index : Nat) : .notAnObject ∉ item.alternativeFaults index := by
    unfold Json.alternativeFaults
    split
    · exact Json.notAnObject_notMem_conditionFaults _
    · simp
  unfold Json.memberFaults
  split
  · simp
  · unfold Json.disjunctionFaults
    split
    · simp
    · simpa using fun item index _ ↦ halternative item index
    · simp
  · exact Json.notAnObject_notMem_conditionFaults member

theorem Json.notAnObject_notMem_pageFaults (members : List (String × Json)) :
    .notAnObject ∉ Json.pageFaults members := by
  have hbound (key : String) : .notAnObject ∉ Json.boundFaults key members := by
    unfold Json.boundFaults
    split <;> simp
  have hsort (value : Json) : .notAnObject ∉ value.sortFaults := by
    unfold Json.sortFaults
    split <;> simp
  have hplace : .notAnObject ∉
      ((Assoc.get? MemberKind.sortKey members).map Json.sortFaults).getD [] := by
    cases Assoc.get? MemberKind.sortKey members with
    | none => simp
    | some value => exact hsort value
  rw [Json.pageFaults, List.mem_append, List.mem_append]
  rintro ((h | h) | h)
  · exact hbound _ h
  · exact hbound _ h
  · exact hplace h

/-- An object has other faults than not to be one. -/
theorem Json.notAnObject_notMem_faults (members : List (String × Json)) :
    .notAnObject ∉ (Json.object members).faults := by
  rw [Json.faults, List.mem_append, List.mem_flatMap]
  rintro (⟨member, -, h⟩ | h)
  · exact Json.notAnObject_notMem_memberFaults member h
  · exact Json.notAnObject_notMem_pageFaults members h

theorem Filter.stopsAtFirst_ofMembers (members : List (String × Json)) :
    StopsAtFirst (Json.object members).faults (Filter.ofMembers members) := by
  refine (StopsAtFirst.mapM Entry.stopsAtFirst_ofMember members).bind fun entries _ ↦ ?_
  exact (Pagination.stopsAtFirst_ofMembers members).bind_ok (Filter.mk (entries.filterMap id))

theorem Filter.stopsAtFirst_ofJson (document : Json) :
    StopsAtFirst document.faults (Filter.ofJson document) := by
  cases document with
  | scalar s => exact .error _ []
  | array items => exact .error _ []
  | object members => exact Filter.stopsAtFirst_ofMembers members

/-- A document is a filter exactly when it has no fault, and otherwise its first fault is the
error. -/
theorem Filter.ofJson_stops_at_first_fault (document : Json) :
    ((∃ f, Filter.ofJson document = .ok f) ↔ document.faults = []) ∧
      ∀ e, Filter.ofJson document = .error e ↔ document.faults.head? = some e :=
  ⟨(Filter.stopsAtFirst_ofJson document).exists_ok_iff,
    (Filter.stopsAtFirst_ofJson document).eq_error_iff⟩

/-- A bad order is written first and still reported behind a bad condition. -/
example : (Json.object [("$sort", .string "a"), ("a", .array []), ("$or", .bool true)]).faults =
    [.invalidFieldValue "a", .invalidDisjunction, .invalidSort] := by
  decide

end RowFilter
