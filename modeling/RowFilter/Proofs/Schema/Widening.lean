import RowFilter.Proofs.Schema.Additivity

/-!
Widening a schema. A schema is wider than another one if it declares every field of it with a type
of at least the same values, and maybe further fields. What the wider schema finds wrong with a
document, the other one finds wrong at the same place or in a container of it (`covered_check`), so
widening breaks no document. The condition is exact: a schema that accepts whatever another one
accepts is wider than it, since a group can ask for every value of every field (`wider_iff`).
-/

set_option autoImplicit false

namespace RowFilter

/-- The other type accepts at least the same values. -/
def FieldType.Within (type wider : FieldType) : Prop :=
  ∀ value, type.accepts value = true → wider.accepts value = true

namespace Schema

/-- The other schema declares every field of this one, with a type of at least the same values. -/
def WidenedBy (s wider : Schema) : Prop :=
  ∀ name type, s.type? name = some type →
    ∃ wideType, wider.type? name = some wideType ∧ type.Within wideType

/-- Declares fields one after another. -/
def declareAll (s : Schema) (added : List (String × FieldType)) : Schema :=
  added.foldl (fun s e ↦ s.declare e.1 e.2) s

/-- For each issue of the first report the second one has an issue of the same value or of a
container that the value is in. -/
def Covered (issues others : List Issue) : Prop :=
  ∀ i ∈ issues, ∃ j ∈ others, j.pointer <+: i.pointer

/-! ### Reports -/

section Reports

variable {issues others : List Issue}

theorem Covered.refl (issues : List Issue) : Covered issues issues :=
  fun i hi ↦ ⟨i, hi, List.prefix_rfl⟩

theorem Covered.nil (others : List Issue) : Covered [] others := List.forall_mem_nil _

/-- An issue of the whole value covers whatever is wrong inside. -/
theorem Covered.here (issues : List Issue) (v : Violation) : Covered issues (here v) :=
  fun _ _ ↦ ⟨⟨[], v⟩, List.mem_singleton_self _, List.nil_prefix⟩

theorem Covered.append {issues' others' : List Issue} (h : Covered issues others)
    (h' : Covered issues' others') : Covered (issues ++ issues') (others ++ others') := by
  intro i hi
  rcases List.mem_append.mp hi with hi | hi
  · obtain ⟨j, hj, hprefix⟩ := h i hi
    exact ⟨j, List.mem_append_left _ hj, hprefix⟩
  · obtain ⟨j, hj, hprefix⟩ := h' i hi
    exact ⟨j, List.mem_append_right _ hj, hprefix⟩

theorem Covered.members {check wideCheck : String → Json → List Issue}
    {members : List (String × Json)}
    (h : ∀ m ∈ members, Covered (wideCheck m.1 m.2) (check m.1 m.2)) :
    Covered (issuesOfMembers wideCheck members) (issuesOfMembers check members) := by
  intro i hi
  obtain ⟨m, hm, hi⟩ := List.mem_flatMap.mp hi
  obtain ⟨inner, hinner, rfl⟩ := List.mem_map.mp hi
  obtain ⟨j, hj, hprefix⟩ := h m hm inner hinner
  refine ⟨j.under m.1, List.mem_flatMap.mpr ⟨m, hm, List.mem_map_of_mem hj⟩, ?_⟩
  show m.1 :: j.pointer <+: m.1 :: inner.pointer
  exact (List.prefix_cons_inj m.1).mpr hprefix

theorem Covered.eq_nil (h : Covered issues []) : issues = [] := by
  apply List.eq_nil_iff_forall_not_mem.mpr
  intro i hi
  obtain ⟨j, hj, -⟩ := h i hi
  exact List.not_mem_nil hj

end Reports

/-! ### Checks -/

section Checks

variable {s wider : Schema} {type wideType : FieldType}

theorem covered_checkOperand (h : type.Within wideType) (directive : String) (operand : Json) :
    Covered (checkOperand wideType directive operand) (checkOperand type directive operand) := by
  unfold checkOperand
  by_cases hdirective : (Operator.ofDirective? directive).isNone = true
  · rw [if_pos hdirective, if_pos hdirective]
    exact .refl _
  · rw [if_neg hdirective, if_neg hdirective]
    by_cases hoperand : (operand.isNull || type.accepts operand) = true
    · have hwide : (operand.isNull || wideType.accepts operand) = true := by
        rw [Bool.or_eq_true] at hoperand ⊢
        exact hoperand.imp_right (h operand)
      rw [if_pos hwide]
      exact .nil _
    · rw [if_neg hoperand]
      exact .here _ _

theorem covered_checkField (h : type.Within wideType) (value : Json) :
    Covered (checkField wideType value) (checkField type value) := by
  unfold checkField
  by_cases hwide : wideType.accepts value = true
  · rw [if_pos hwide]
    exact .nil _
  · rw [if_neg hwide, if_neg fun haccepts ↦ hwide (h value haccepts)]
    cases value with
    | object directives => exact .members fun d _ ↦ covered_checkOperand h d.1 d.2
    | scalar t => exact .here _ _
    | array items => exact .here _ _

theorem covered_checkDeclared (h : s.WidenedBy wider) (name : String) (value : Json) :
    Covered (wider.checkDeclared name value) (s.checkDeclared name value) := by
  unfold checkDeclared
  cases htype : s.type? name with
  | none => exact .here _ _
  | some type =>
    obtain ⟨wideType, hwide, hwithin⟩ := h name type htype
    rw [hwide]
    exact covered_checkField hwithin value

theorem covered_checkAlternative (h : s.WidenedBy wider) (value : Json) :
    Covered (wider.checkAlternative value) (s.checkAlternative value) := by
  cases value with
  | object members =>
    exact (Covered.refl _).append (.members fun m _ ↦ covered_checkDeclared h m.1 m.2)
  | scalar t => exact .refl _
  | array items => exact .refl _

theorem covered_checkDisjunction (h : s.WidenedBy wider) (value : Json) :
    Covered (wider.checkDisjunction value) (s.checkDisjunction value) := by
  cases value with
  | array items =>
    show Covered (wider.checkAlternatives 0 items) (s.checkAlternatives 0 items)
    rw [checkAlternatives_eq, checkAlternatives_eq]
    exact .members fun e _ ↦ covered_checkAlternative h e.2
  | scalar t => exact .refl _
  | object members => exact .refl _

theorem covered_checkMember (h : s.WidenedBy wider) (key : String) (value : Json) :
    Covered (wider.checkMember key value) (s.checkMember key value) := by
  unfold checkMember
  split_ifs
  · exact covered_checkDisjunction h value
  · exact .refl _
  · exact .refl _
  · exact covered_checkDeclared h key value

theorem covered_check (h : s.WidenedBy wider) (document : Json) :
    Covered (wider.check document) (s.check document) := by
  cases document with
  | object members => exact .members fun m _ ↦ covered_checkMember h m.1 m.2
  | scalar t => exact .refl _
  | array items => exact .refl _

end Checks

/-! ### Documents -/

section Documents

variable {s wider : Schema}

theorem accepts_of_covered {document : Json}
    (h : Covered (wider.check document) (s.check document)) (haccepts : s.accepts document = true) :
    wider.accepts document = true := by
  rw [accepts, List.isEmpty_iff] at haccepts ⊢
  rw [haccepts] at h
  exact h.eq_nil

theorem accepts_alternative_iff {name : String} {value : Json} :
    s.accepts (.object [("$or", .array [.object [(name, value)]])]) = true ↔
      s.checkDeclared name value = [] := by
  rw [accepts, List.isEmpty_iff, check_alternative_singleton, List.map_eq_nil_iff,
    List.map_eq_nil_iff, issuesOfMembers_eq_nil_iff, List.forall_mem_singleton]

/-- A group can ask for a field by no comparison at all, which tells that it is declared, and by
each value of its type. -/
theorem widenedBy_of_accepts
    (h : ∀ document, s.accepts document = true → wider.accepts document = true) :
    s.WidenedBy wider := by
  have hdeclared (name : String) (value : Json) (hvalue : s.checkDeclared name value = []) :
      wider.checkDeclared name value = [] :=
    accepts_alternative_iff.mp (h _ (accepts_alternative_iff.mpr hvalue))
  intro name type htype
  have hempty : s.checkDeclared name (.object []) = [] :=
    checkDeclared_eq_nil_iff.mpr
      ⟨type, htype, checkField_eq_nil_iff.mpr (.inr ⟨[], rfl, List.forall_mem_nil _⟩)⟩
  obtain ⟨wideType, hwide, -⟩ := checkDeclared_eq_nil_iff.mp (hdeclared name _ hempty)
  refine ⟨wideType, hwide, fun value haccepts ↦ ?_⟩
  have hvalue : s.checkDeclared name value = [] :=
    checkDeclared_eq_nil_iff.mpr ⟨type, htype, checkField_eq_nil_iff.mpr (.inl haccepts)⟩
  obtain ⟨sameType, hsame, hfield⟩ := checkDeclared_eq_nil_iff.mp (hdeclared name value hvalue)
  rw [hwide] at hsame
  cases hsame
  rcases checkField_eq_nil_iff.mp hfield with hwideAccepts | ⟨directives, rfl, -⟩
  · exact hwideAccepts
  · rw [type.accepts_object] at haccepts
    exact absurd haccepts Bool.false_ne_true

theorem type?_declare_of_ne {name other : String} (h : other ≠ name) (type : FieldType) :
    (s.declare name type).type? other = s.type? other :=
  SortedMap.get?_insert_of_ne s.fields h type

theorem widenedBy_declareAll {added : List (String × FieldType)}
    (h : ∀ e ∈ added, s.type? e.1 = none) : s.WidenedBy (s.declareAll added) := by
  intro name type htype
  -- No declaration is of a name that the schema itself declares, whatever was added before.
  have hkept (start : Schema) : (start.declareAll added).type? name = start.type? name := by
    induction added generalizing start with
    | nil => rfl
    | cons e rest ih =>
      obtain ⟨he, hrest⟩ := List.forall_mem_cons.mp h
      have hne : name ≠ e.1 := by
        rintro rfl
        rw [htype] at he
        exact Option.some_ne_none _ he
      show ((start.declare e.1 e.2).declareAll rest).type? name = _
      rw [ih hrest, type?_declare_of_ne hne]
  exact ⟨type, (hkept s).trans htype, fun _ haccepts ↦ haccepts⟩

/-- A schema is wider than another one exactly when each of its issues is, in the report of the
other one, an issue at the same pointer or at one that leads to it, and exactly when it accepts all
documents that the other one accepts. So it is when fields are added, whatever their names. -/
theorem wider_iff (s wider : Schema) :
    (s.WidenedBy wider ↔ ∀ document, ∀ i ∈ wider.check document,
        ∃ j ∈ s.check document, j.pointer <+: i.pointer) ∧
      (s.WidenedBy wider ↔
        ∀ document, s.accepts document = true → wider.accepts document = true) ∧
      ∀ added, (∀ e ∈ added, s.type? e.1 = none) →
        ∀ document, s.accepts document = true → (s.declareAll added).accepts document = true := by
  have haccepts {t : Schema} (h : s.WidenedBy t) (document : Json) :
      s.accepts document = true → t.accepts document = true :=
    accepts_of_covered (covered_check h document)
  refine ⟨⟨covered_check, fun h ↦ ?_⟩, ⟨haccepts, widenedBy_of_accepts⟩,
    fun added hadded ↦ haccepts (widenedBy_declareAll hadded)⟩
  exact widenedBy_of_accepts fun document ↦ accepts_of_covered (h document)

/-- The field that is added is named like a bound of the page: at the top it is no field at all, and
in a group it takes the place of an unknown member. -/
theorem wider_iff_by_reserved_name :
    let s := Schema.empty.declare "a" (.single .integer)
    let wider := (Schema.empty.declare "a" (.union [.null, .number])).declare "$limit"
      (.single .string)
    let document : Json := .object [("a", .object [("$gt", .string ""), ("$lt", .null)]),
      ("$limit", .int (-1)), ("$or", .array [.object [("$limit", .object [("$no", .null)])],
        .object [("a", .null)]])]
    s.WidenedBy wider ∧
      ((s.check document).map fun i ↦ i.pointer.text) =
        ["/a/$gt", "/$limit", "/$or/0/$limit", "/$or/1/a"] ∧
      ((wider.check document).map fun i ↦ i.pointer.text) =
        ["/a/$gt", "/$limit", "/$or/0/$limit/$no"] ∧
      (∀ i ∈ wider.check document, ∃ j ∈ s.check document, j.pointer <+: i.pointer) ∧
      (s.declareAll [("$limit", .single .string)]).accepts
        (.object [("$limit", .int 1), ("a", .object [("$ne", .int 2)])]) = true := by
  intro s wider document
  have hwithin : (FieldType.single .integer).Within (.union [.null, .number]) := by
    intro value haccepts
    cases value with
    | scalar t =>
      cases t with
      | number n => rfl
      | _ => cases haccepts
    | _ => cases haccepts
  have hwider : s.WidenedBy wider := by
    intro name type htype
    by_cases hname : name = "a"
    · subst hname
      cases htype
      exact ⟨.union [.null, .number], by decide, hwithin⟩
    · rw [type?_declare_of_ne hname] at htype
      cases htype
  obtain ⟨hcovers, -, hadded⟩ := wider_iff s wider
  exact ⟨hwider, by decide, by decide, hcovers.mp hwider document,
    hadded _ (List.forall_mem_singleton.mpr (by decide)) _ (by decide)⟩

end Documents

end Schema

end RowFilter
