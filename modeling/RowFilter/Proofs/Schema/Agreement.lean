import RowFilter.Proofs.Filter.FieldName
import RowFilter.Proofs.Schema.Acceptance
import RowFilter.Proofs.Schema.Keywords
import RowFilter.Schema.Document

/-!
The check of a schema and its JSON Schema document say the same. Each part of the document is shown
to be satisfied by exactly the values in which the check of that part finds nothing: types,
operands, fields, alternatives, groups, bounds, directions. A filter document is accepted if and
only if it satisfies the whole document (`accepts_eq_satisfies`), whatever the declared names are: a
directive takes the place of a field of its name at the top, and within an alternative it does not.
-/

set_option autoImplicit false

namespace RowFilter

open JsonSchema

/-! ### Objects with declared members only -/

namespace JsonSchema

variable {value : Json}

theorem satisfiesNamed_eq_true_iff {ms schemas : List (String × Json)} :
    satisfiesNamed ms schemas = true ↔
      ∀ m ∈ ms, ∀ e ∈ schemas, m.1 = e.1 → satisfies m.2 e.2 = true := by
  induction schemas with
  | nil => simp [satisfiesNamed]
  | cons e rest ih =>
    obtain ⟨name, schema⟩ := e
    simp only [satisfiesNamed, Bool.and_eq_true, List.all_eq_true, ih, List.forall_mem_cons,
      Bool.or_eq_true, decide_eq_true_eq, ← imp_iff_not_or]
    constructor
    · rintro ⟨hfirst, hrest⟩ m hm
      exact ⟨hfirst m hm, hrest m hm⟩
    · intro h
      exact ⟨fun m hm ↦ (h m hm).1, fun m hm ↦ (h m hm).2⟩

/-- A member satisfies the schema of its name, which is there. -/
def Declared (schemas : List (String × Json)) (m : String × Json) : Prop :=
  ∃ schema, Assoc.get? m.1 schemas = some schema ∧ satisfies m.2 schema = true

/-- Where `properties` has the given schemas and no others are admitted, every member is
declared. -/
theorem forall_declared_iff {schemas : List (String × Json)} (hkeys : (schemas.map Prod.fst).Nodup)
    (keywords : List (String × Json))
    (hkeywords : Assoc.get? "properties" keywords = some (.object schemas))
    (ms : List (String × Json)) :
    (ms.all fun m ↦ declares keywords m.1 || satisfies m.2 (.bool false)) = true ∧
        satisfiesNamed ms schemas = true ↔ ∀ m ∈ ms, Declared schemas m := by
  simp only [List.all_eq_true, satisfies, Bool.or_false, declares, hkeywords,
    Option.isSome_iff_exists, satisfiesNamed_eq_true_iff, ← forall₂_and]
  refine forall₂_congr fun m hm ↦ ?_
  constructor
  · rintro ⟨⟨schema, hschema⟩, hall⟩
    exact ⟨schema, hschema, hall _ (Assoc.mem_of_get?_eq_some hschema) rfl⟩
  · rintro ⟨schema, hschema, hsatisfies⟩
    refine ⟨⟨schema, hschema⟩, fun e he hname ↦ ?_⟩
    have hget := (Assoc.get?_eq_some_iff_mem hkeys).mpr he
    rw [← hname, hschema] at hget
    cases hget
    exact hsatisfies

theorem allowsType_object :
    allowsType value (.string "object") = true ↔ ∃ ms, value = .object ms := by
  cases value with
  | scalar s => cases s <;> simp [allowsType, isOfType]
  | array items => simp [allowsType, isOfType]
  | object ms => simp [allowsType, isOfType]

theorem allowsType_array :
    allowsType value (.string "array") = true ↔ ∃ xs, value = .array xs := by
  cases value with
  | scalar s => cases s <;> simp [allowsType, isOfType]
  | array items => simp [allowsType, isOfType]
  | object ms => simp [allowsType, isOfType]

/-- An object whose members are all declared and satisfy what is declared of them. -/
theorem satisfies_closed_iff {schemas : List (String × Json)}
    (hkeys : (schemas.map Prod.fst).Nodup) :
    satisfies value (.object [("type", .string "object"), ("additionalProperties", .bool false),
        ("properties", .object schemas)]) = true ↔
      ∃ ms, value = .object ms ∧ ∀ m ∈ ms, Declared schemas m := by
  have hdeclared := forall_declared_iff hkeys [("type", .string "object"),
    ("additionalProperties", .bool false), ("properties", .object schemas)] rfl
  have hnullable : nullable [("type", .string "object"), ("additionalProperties", .bool false),
    ("properties", .object schemas)] = false := rfl
  simp only [satisfies_object, satisfiesAll_type, satisfiesAll_additionalProperties,
    satisfiesAll_properties, satisfiesAll_nil, hnullable, Bool.false_and, Bool.or_false,
    Bool.and_true, Bool.and_eq_true, hdeclared, allowsType_object]
  constructor
  · rintro ⟨⟨ms, rfl⟩, h⟩
    exact ⟨ms, rfl, h⟩
  · rintro ⟨ms, rfl, h⟩
    exact ⟨⟨ms, rfl⟩, h⟩

end JsonSchema

/-! ### Types -/

theorem Number.isInt_toRat (n : Number) : n.toRat.isInt = n.toInt?.isSome := by
  rw [Bool.eq_iff_iff, Option.isSome_iff_exists]
  simp only [Number.toInt?_eq_some_iff]
  constructor
  · intro h
    exact ⟨n.toRat.num, (Rat.coe_int_num_of_den_eq_one (by simpa [Rat.isInt] using h)).symm⟩
  · rintro ⟨i, hi⟩
    rw [hi]
    rfl

theorem PrimitiveType.isOfType_name (type : PrimitiveType) (value : Json) :
    isOfType value type.name = type.accepts value := by
  cases value with
  | scalar s =>
    cases s with
    | number n => cases type <;> simp [isOfType, name, accepts, Number.isInt_toRat]
    | null => cases type <;> rfl
    | bool b => cases type <;> rfl
    | string t => cases type <;> rfl
  | array items => cases type <;> rfl
  | object ms => cases type <;> rfl

theorem FieldType.allowsType_toJson (type : FieldType) (value : Json) :
    allowsType value type.toJson = type.accepts value := by
  cases type with
  | single t => exact t.isOfType_name value
  | union ts =>
    simp only [toJson, allowsType, accepts, List.any_map]
    exact congrArg ts.any (funext fun t ↦ t.isOfType_name value)

namespace Schema

variable {s : Schema} {type : FieldType} {value : Json}

/-! ### Fields -/

theorem satisfies_operandDocument_iff :
    satisfies value (operandDocument type) = true ↔ value = .null ∨ type.accepts value = true := by
  have hnullable : nullable [("type", type.toJson), ("nullable", .bool true)] = true := rfl
  simp only [operandDocument, satisfies_object, satisfiesAll_type, satisfiesAll_nullable,
    satisfiesAll_nil, Bool.and_true, FieldType.allowsType_toJson, hnullable, Bool.true_and,
    Bool.or_eq_true, Json.isNull_eq_true_iff, or_comm]

theorem get?_comparisons (directive : String) :
    Assoc.get? directive (Operator.all.map fun op ↦ (op.directive, operandDocument type)) =
      (Operator.ofDirective? directive).map fun _ ↦ operandDocument type := by
  unfold Operator.ofDirective?
  induction Operator.all with
  | nil => rfl
  | cons op rest ih =>
    rw [List.map_cons, Assoc.get?, List.find?_cons]
    by_cases hop : op.directive = directive
    · simp [hop]
    · simp [hop, ih]

theorem declared_comparisons_iff {d : String × Json} :
    Declared (Operator.all.map fun op ↦ (op.directive, operandDocument type)) d ↔
      checkOperand type d.1 d.2 = [] := by
  rw [Declared, get?_comparisons, checkOperand_eq_nil_iff, ← satisfies_operandDocument_iff]
  cases Operator.ofDirective? d.1 <;> simp

theorem satisfies_fieldDocument_iff :
    satisfies value (fieldDocument type) = true ↔ checkField type value = [] := by
  have hkeys : ((Operator.all.map fun op ↦ (op.directive, operandDocument type)).map
      Prod.fst).Nodup := by
    rw [List.map_map]
    show (Operator.all.map Operator.directive).Nodup
    decide
  have htype : satisfies value (.object [("type", type.toJson)]) = type.accepts value := by
    have hnullable : nullable [("type", type.toJson)] = false := rfl
    simp only [satisfies_object, satisfiesAll_type, satisfiesAll_nil, hnullable,
      FieldType.allowsType_toJson, Bool.false_and, Bool.or_false, Bool.and_true]
  rw [checkField_eq_nil_iff]
  simp only [fieldDocument, @satisfies_object [("anyOf", _)], satisfiesAll_anyOf,
    satisfiesAll_nil, satisfiesAny, Bool.and_true, Bool.or_false, Bool.or_eq_true, htype,
    satisfies_closed_iff hkeys, declared_comparisons_iff]

/-! ### Groups -/

theorem nodup_fieldProperties (s : Schema) : (s.fieldProperties.map Prod.fst).Nodup := by
  rw [fieldProperties, List.map_map]
  exact s.fields.nodup_keys

theorem get?_fieldProperties (s : Schema) (name : String) :
    Assoc.get? name s.fieldProperties = (s.type? name).map fieldDocument := by
  unfold fieldProperties type? SortedMap.get?
  induction s.fields.entries with
  | nil => rfl
  | cons e rest ih =>
    rw [List.map_cons, Assoc.get?, Assoc.get?]
    split_ifs
    · rfl
    · exact ih

theorem declared_fieldProperties_iff {m : String × Json} :
    Declared s.fieldProperties m ↔ s.checkDeclared m.1 m.2 = [] := by
  rw [Declared, get?_fieldProperties, checkDeclared_eq_nil_iff]
  constructor
  · rintro ⟨schema, hschema, hsatisfies⟩
    obtain ⟨type, htype, rfl⟩ := Option.map_eq_some_iff.mp hschema
    exact ⟨type, htype, satisfies_fieldDocument_iff.mp hsatisfies⟩
  · rintro ⟨type, htype, hfield⟩
    exact ⟨_, by rw [htype]; rfl, satisfies_fieldDocument_iff.mpr hfield⟩

theorem satisfies_alternative_iff :
    satisfies value (.object [("type", .string "object"), ("maxProperties", .int 1),
        ("additionalProperties", .bool false), ("properties", .object s.fieldProperties)]) = true ↔
      s.checkAlternative value = [] := by
  have hdeclared := forall_declared_iff s.nodup_fieldProperties [("type", .string "object"),
    ("maxProperties", .int 1), ("additionalProperties", .bool false),
    ("properties", .object s.fieldProperties)] rfl
  have hnullable : nullable [("type", .string "object"), ("maxProperties", .int 1),
    ("additionalProperties", .bool false), ("properties", .object s.fieldProperties)] = false := rfl
  rw [checkAlternative_eq_nil_iff]
  simp only [satisfies_object, satisfiesAll_type, satisfiesAll_maxProperties,
    satisfiesAll_additionalProperties, satisfiesAll_properties, satisfiesAll_nil, hnullable,
    Bool.false_and, Bool.or_false, Bool.and_true, Bool.and_eq_true, hdeclared, allowsType_object,
    decide_eq_true_eq, declared_fieldProperties_iff]
  constructor
  · rintro ⟨⟨ms, rfl⟩, hlength, hmembers⟩
    exact ⟨ms, rfl, by simpa [JsonSchema.members] using hlength, hmembers⟩
  · rintro ⟨ms, rfl, hlength, hmembers⟩
    exact ⟨⟨ms, rfl⟩, by simpa [JsonSchema.members] using hlength, hmembers⟩

theorem satisfies_disjunctionDocument_iff :
    satisfies value (disjunctionDocument s.fieldProperties) = true ↔
      s.checkDisjunction value = [] := by
  rw [disjunctionDocument, checkDisjunction_eq_nil_iff]
  -- The schema of the items stays closed while the keywords around it are opened.
  generalize hschema : Json.object [("type", .string "object"), ("maxProperties", .int 1),
    ("additionalProperties", .bool false), ("properties", .object s.fieldProperties)] = schema
  have hitem (item : Json) : satisfies item schema = true ↔ s.checkAlternative item = [] :=
    hschema ▸ satisfies_alternative_iff
  have hnullable : nullable [("type", .string "array"), ("items", schema)] = false := rfl
  simp only [satisfies_object, satisfiesAll_type, satisfiesAll_items, satisfiesAll_nil, hnullable,
    Bool.false_and, Bool.or_false, Bool.and_true, Bool.and_eq_true, allowsType_array,
    List.all_eq_true, hitem]
  constructor
  · rintro ⟨⟨xs, rfl⟩, h⟩
    exact ⟨xs, rfl, h⟩
  · rintro ⟨xs, rfl, h⟩
    exact ⟨⟨xs, rfl⟩, h⟩

/-! ### The order of rows and the page -/

theorem allowsType_integer : allowsType value (.string "integer") = value.toInt?.isSome := by
  cases value with
  | scalar t =>
    cases t with
    | number n => simp [allowsType, isOfType, Number.isInt_toRat, Json.toInt?, Scalar.toInt?]
    | null => rfl
    | bool b => rfl
    | string t => rfl
  | array items => rfl
  | object ms => rfl

theorem atLeast_zero {n : Int} (h : value.toInt? = some n) :
    atLeast (.int 0) value = true ↔ 0 ≤ n := by
  cases value with
  | scalar t =>
    cases t with
    | number a =>
      have ha : a.toRat = n := Number.toInt?_eq_some_iff.mp h
      simp only [atLeast, ha, Number.toRat_int, decide_eq_true_eq, Rat.intCast_le_intCast]
    | null => cases h
    | bool b => cases h
    | string t => cases h
  | array items => cases h
  | object ms => cases h

theorem sameValue_int {n k : Int} (h : value.toInt? = some n) :
    sameValue value (.int k) = true ↔ n = k := by
  cases value with
  | scalar t =>
    cases t with
    | number a =>
      have ha : a.toRat = n := Number.toInt?_eq_some_iff.mp h
      show decide (a.toRat = (Number.int k).toRat) = true ↔ n = k
      rw [ha, Number.toRat_int, decide_eq_true_eq, Rat.intCast_inj]
    | null => cases h
    | bool b => cases h
    | string t => cases h
  | array items => cases h
  | object ms => cases h

theorem satisfies_boundDocument_iff {default : Nat} :
    satisfies value (boundDocument default) = true ↔ checkBound value = [] := by
  have hnullable : nullable [("type", .string "integer"), ("nullable", .bool true),
    ("minimum", .int 0), ("default", .int default)] = true := rfl
  rw [checkBound_eq_nil_iff]
  simp only [boundDocument, satisfies_object, satisfiesAll_type, satisfiesAll_nullable,
    satisfiesAll_minimum, satisfiesAll_default, satisfiesAll_nil, hnullable, allowsType_integer,
    Bool.true_and, Bool.and_true, Bool.and_eq_true, Bool.or_eq_true, Json.isNull_eq_true_iff]
  constructor
  · rintro ⟨hinteger | rfl, hbound⟩
    · obtain ⟨n, hn⟩ := Option.isSome_iff_exists.mp hinteger
      exact Or.inr ⟨n, hn, (atLeast_zero hn).mp hbound⟩
    · exact Or.inl rfl
  · rintro (rfl | ⟨n, hn, hbound⟩)
    · exact ⟨Or.inr rfl, rfl⟩
    · exact ⟨Or.inl (by rw [hn]; rfl), (atLeast_zero hn).mpr hbound⟩

theorem satisfies_directionDocument_iff :
    satisfies value (.object [("type", .string "integer"), ("enum", .array [.int 1, .int (-1)])])
      = true ↔ checkDirection value = [] := by
  have hnullable : nullable [("type", .string "integer"),
    ("enum", .array [.int 1, .int (-1)])] = false := rfl
  rw [checkDirection_eq_nil_iff]
  simp only [satisfies_object, satisfiesAll_type, satisfiesAll_enum, satisfiesAll_nil, hnullable,
    allowsType_integer, Bool.false_and, Bool.or_false, Bool.and_true, Bool.and_eq_true]
  cases hvalue : value.toInt? with
  | none => simp
  | some n => simp [sameValue_int hvalue]

theorem satisfies_sortDocument_iff :
    satisfies value sortDocument = true ↔ checkSort value = [] := by
  have hdeclares (direction : Json) (name : String) : declares [("type", .string "object"),
    ("additionalProperties", direction), ("nullable", .bool true)] name = false := rfl
  have hnullable (direction : Json) : nullable [("type", .string "object"),
    ("additionalProperties", direction), ("nullable", .bool true)] = true := rfl
  rw [checkSort_eq_nil_iff]
  simp only [sortDocument]
  generalize hdirection : Json.object [("type", .string "integer"),
    ("enum", .array [.int 1, .int (-1)])] = direction
  have hmember (j : Json) : satisfies j direction = true ↔ checkDirection j = [] :=
    hdirection ▸ satisfies_directionDocument_iff
  simp only [satisfies_object, satisfiesAll_type, satisfiesAll_additionalProperties,
    satisfiesAll_nullable, satisfiesAll_nil, hdeclares, hnullable, Bool.false_or, Bool.true_and,
    Bool.and_true, Bool.and_eq_true, Bool.or_eq_true, allowsType_object, Json.isNull_eq_true_iff,
    List.all_eq_true, hmember]
  constructor
  · rintro ⟨⟨ms, rfl⟩ | rfl, h⟩
    · exact Or.inr ⟨ms, rfl, h⟩
    · exact Or.inl rfl
  · rintro (rfl | ⟨ms, rfl, h⟩)
    · exact ⟨Or.inr rfl, List.forall_mem_nil _⟩
    · exact ⟨Or.inl ⟨ms, rfl⟩, h⟩

/-! ### Documents -/

theorem nodup_properties (s : Schema) : (s.properties.map Prod.fst).Nodup :=
  Assoc.nodup_keys_put (Assoc.nodup_keys_put (Assoc.nodup_keys_put
    (Assoc.nodup_keys_put s.nodup_fieldProperties _ _) _ _) _ _) _ _

/-- The schema of a directive is found under its key, and that of any other key is the one of a
declared field. -/
theorem get?_properties (s : Schema) (key : String) :
    Assoc.get? key s.properties =
      if key = MemberKind.disjunctionKey then some (disjunctionDocument s.fieldProperties)
      else if key = MemberKind.limitKey then some (boundDocument Filter.defaultLimit)
      else if key = MemberKind.skipKey then some (boundDocument 0)
      else if key = MemberKind.sortKey then some sortDocument
      else (s.type? key).map fieldDocument := by
  simp only [properties, List.foldl_cons, List.foldl_nil, Assoc.get?_put, get?_fieldProperties]
  split_ifs <;> first | rfl | simp_all [MemberKind.disjunctionKey, MemberKind.limitKey,
    MemberKind.skipKey, MemberKind.sortKey]

theorem declared_properties_iff {m : String × Json} :
    Declared s.properties m ↔ s.checkMember m.1 m.2 = [] := by
  rw [Declared, get?_properties]
  by_cases hor : m.1 = MemberKind.disjunctionKey
  · simp only [checkMember, if_pos hor, Option.some.injEq, exists_eq_left',
      satisfies_disjunctionDocument_iff]
  rw [if_neg hor, checkMember, if_neg hor]
  by_cases hlimit : m.1 = MemberKind.limitKey
  · simp only [if_pos hlimit, if_pos (Or.inl hlimit), Option.some.injEq, exists_eq_left',
      satisfies_boundDocument_iff]
  rw [if_neg hlimit]
  by_cases hskip : m.1 = MemberKind.skipKey
  · simp only [if_pos hskip, if_pos (Or.inr hskip), Option.some.injEq, exists_eq_left',
      satisfies_boundDocument_iff]
  rw [if_neg hskip, if_neg (not_or.mpr ⟨hlimit, hskip⟩)]
  by_cases hsort : m.1 = MemberKind.sortKey
  · simp only [if_pos hsort, Option.some.injEq, exists_eq_left', satisfies_sortDocument_iff]
  rw [if_neg hsort, if_neg hsort, ← get?_fieldProperties]
  exact declared_fieldProperties_iff

/-- A document is accepted exactly when it satisfies the schema document. -/
theorem accepts_eq_satisfies (s : Schema) (value : Json) :
    s.accepts value = satisfies value s.document := by
  rw [Bool.eq_iff_iff, accepts_eq_true_iff, document, satisfies_closed_iff s.nodup_properties]
  simp only [declared_properties_iff]

end Schema

end RowFilter
