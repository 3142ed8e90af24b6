import RowFilter.Compile
import RowFilter.Proofs.Filter.FieldName
import RowFilter.Proofs.Schema.Acceptance

/-!
Accepted documents compile, up to two gaps. Where every declared name is an identifier, what the
check of a schema lets through is read as a filter, part by part: an accepted field value is a
condition, an accepted group is a group of conditions, accepted bounds are scalars. Two parts of a
document are looked at less closely by the check than by the reader. An alternative without members
is accepted, since it has at most one, and the names under the sort directive are not looked at.
`exists_compileDocument_of_accepts` says that there is no third gap; what compiles falls into
neither of the two (`gapless_of_compileDocument`).
-/

set_option autoImplicit false

namespace RowFilter

/-! ### Where the check is less strict -/

namespace Json

/-- The alternatives of all groups of a filter document. -/
def alternatives : Json → List Json
  | .object members => members.flatMap fun m ↦
      match MemberKind.ofKey m.1, m.2 with
      | .disjunction, .array items => items
      | _, _ => []
  | _ => []

/-- The names under the sort directive of a filter document. -/
def sortNames : Json → List String
  | .object members => ((Assoc.get? MemberKind.sortKey members).map memberNames).getD []
  | _ => []

/-- No alternative is without members, and every sort field is named by an identifier. -/
structure Gapless (document : Json) : Prop where
  alternatives : ∀ item ∈ document.alternatives, item ≠ .object []
  sortNames : ∀ name ∈ document.sortNames, isIdentifier name = true

end Json

/-! ### Accepted parts are read -/

section Parts

variable {s : Schema} {type : FieldType} {value : Json}

/-- Every type is a type of scalars. -/
theorem FieldType.exists_scalar_of_accepts (h : type.accepts value = true) :
    ∃ t, value = .scalar t := by
  have hprimitive (p : PrimitiveType) (hp : p.accepts value = true) : ∃ t, value = .scalar t := by
    cases value with
    | scalar t => exact ⟨t, rfl⟩
    | array items => cases p <;> cases hp
    | object members => cases p <;> cases hp
  cases type with
  | single p => exact hprimitive p h
  | union ps =>
    obtain ⟨p, -, hp⟩ := List.any_eq_true.mp h
    exact hprimitive p hp

theorem Comparison.exists_of_checkOperand {directive : String} (field : Identifier)
    (h : Schema.checkOperand type directive value = []) :
    ∃ c, Comparison.ofMember field (directive, value) = .ok c := by
  obtain ⟨⟨op, hop⟩, hvalue⟩ := Schema.checkOperand_eq_nil_iff.mp h
  obtain ⟨t, rfl⟩ : ∃ t, value = .scalar t := by
    rcases hvalue with rfl | hvalue
    · exact ⟨.null, rfl⟩
    · exact FieldType.exists_scalar_of_accepts hvalue
  exact ⟨⟨op, t⟩, by simp only [Comparison.ofMember, hop]⟩

theorem Condition.exists_of_checkField (field : Identifier)
    (h : Schema.checkField type value = []) : ∃ c, Condition.ofJson field value = .ok c := by
  rcases Schema.checkField_eq_nil_iff.mp h with haccepts | ⟨directives, rfl, hoperands⟩
  · obtain ⟨t, rfl⟩ := FieldType.exists_scalar_of_accepts haccepts
    exact ⟨.ofScalar t, rfl⟩
  · obtain ⟨cs, hcs⟩ := exists_mapM_eq_ok fun d hd ↦
      Comparison.exists_of_checkOperand field (hoperands d hd)
    exact ⟨.compare cs, by rw [Condition.ofJson, hcs]; rfl⟩

/-- The names of a schema are fit to be columns. -/
def Schema.NamesIdentifiers (s : Schema) : Prop :=
  ∀ e ∈ s.fields.entries, isIdentifier e.1 = true

variable (hs : s.NamesIdentifiers)

include hs

theorem FieldCondition.exists_of_checkDeclared {name : String}
    (h : s.checkDeclared name value = []) :
    ∃ c, FieldCondition.ofMember (name, value) = .ok c := by
  obtain ⟨type, htype, hfield⟩ := Schema.checkDeclared_eq_nil_iff.mp h
  obtain ⟨field, hname⟩ := Identifier.exists_ofString? (hs _ (Assoc.mem_of_get?_eq_some htype))
  obtain ⟨condition, hcondition⟩ := Condition.exists_of_checkField field hfield
  have hread : Identifier.ofFieldName name = .ok field := by rw [Identifier.ofFieldName, hname]
  exact ⟨⟨field, condition⟩,
    bind_eq_ok.mpr ⟨field, hread, bind_eq_ok.mpr ⟨condition, hcondition, rfl⟩⟩⟩

theorem FieldCondition.exists_of_checkAlternative (index : Nat)
    (h : s.checkAlternative value = []) (hne : value ≠ .object []) :
    ∃ c, FieldCondition.ofAlternative index value = .ok c := by
  obtain ⟨members, rfl, hlength, hmembers⟩ := Schema.checkAlternative_eq_nil_iff.mp h
  match members, hlength with
  | [], _ => exact absurd rfl hne
  | [m], _ => exact FieldCondition.exists_of_checkDeclared hs (hmembers m List.mem_cons_self)

theorem FieldCondition.exists_of_checkAlternatives {items : List Json} (index : Nat)
    (h : ∀ item ∈ items, s.checkAlternative item = []) (hne : ∀ item ∈ items, item ≠ .object []) :
    ∃ cs, FieldCondition.ofAlternatives index items = .ok cs := by
  induction items generalizing index with
  | nil => exact ⟨[], rfl⟩
  | cons item rest ih =>
    obtain ⟨hitem, hrest⟩ := List.forall_mem_cons.mp h
    obtain ⟨hitemNe, hrestNe⟩ := List.forall_mem_cons.mp hne
    obtain ⟨c, hc⟩ := FieldCondition.exists_of_checkAlternative hs index hitem hitemNe
    obtain ⟨cs, hcs⟩ := ih (index + 1) hrest hrestNe
    exact ⟨c :: cs, by rw [FieldCondition.ofAlternatives, hc, hcs]; rfl⟩

theorem Entry.exists_of_checkMember {key : String} (h : s.checkMember key value = [])
    (hne : MemberKind.ofKey key = .disjunction →
      ∀ items, value = .array items → ∀ item ∈ items, item ≠ .object []) :
    ∃ e, Entry.ofMember (key, value) = .ok e := by
  unfold Entry.ofMember
  cases hkind : MemberKind.ofKey key with
  | pagination => exact ⟨none, rfl⟩
  | disjunction =>
    rw [Schema.checkMember_of_disjunction hkind] at h
    obtain ⟨items, rfl, hitems⟩ := Schema.checkDisjunction_eq_nil_iff.mp h
    obtain ⟨cs, hcs⟩ := FieldCondition.exists_of_checkAlternatives hs 0 hitems (hne hkind _ rfl)
    exact ⟨some (.anyOf cs), by simp only [FieldCondition.ofDisjunction, hcs]; rfl⟩
  | field =>
    rw [Schema.checkMember_of_field hkind] at h
    obtain ⟨c, hc⟩ := FieldCondition.exists_of_checkDeclared hs h
    exact ⟨some (.field c), by simp only [hc]; rfl⟩

end Parts

/-! ### The order of rows and the page -/

section Page

variable {members : List (String × Json)}

/-- Null is a bound, and so is every number that is accepted. -/
theorem Pagination.exists_bound (key : String)
    (h : ∀ value, Assoc.get? key members = some value → Schema.checkBound value = []) :
    ∃ b, Pagination.bound key members = .ok b := by
  unfold Pagination.bound
  cases hvalue : Assoc.get? key members with
  | none => exact ⟨none, rfl⟩
  | some value =>
    cases value with
    | scalar t => exact ⟨some t, rfl⟩
    | array items => simpa [Json.toInt?] using Schema.checkBound_eq_nil_iff.mp (h _ hvalue)
    | object ms => simpa [Json.toInt?] using Schema.checkBound_eq_nil_iff.mp (h _ hvalue)

theorem SortTerm.exists_of_checkSort {value : Json} (h : Schema.checkSort value = [])
    (hnames : ∀ name ∈ value.memberNames, isIdentifier name = true) :
    ∃ ts, SortTerm.ofJson value = .ok ts := by
  rcases Schema.checkSort_eq_nil_iff.mp h with rfl | ⟨terms, rfl, -⟩
  · exact ⟨[], rfl⟩
  · exact SortTerm.exists_ofJson_object_iff.mpr fun m hm ↦ hnames m.1 (List.mem_map_of_mem hm)

theorem Pagination.exists_of_checkMember {s : Schema}
    (h : ∀ m ∈ members, s.checkMember m.1 m.2 = [])
    (hnames : ∀ name ∈ (Json.object members).sortNames, isIdentifier name = true) :
    ∃ p, Pagination.ofMembers members = .ok p := by
  have hvalue {key : String} {value : Json} (hget : Assoc.get? key members = some value) :
      s.checkMember key value = [] := h _ (Assoc.mem_of_get?_eq_some hget)
  obtain ⟨limit, hlimit⟩ := Pagination.exists_bound MemberKind.limitKey
    fun _ hget ↦ Schema.checkMember_limitKey.symm.trans (hvalue hget)
  obtain ⟨skip, hskip⟩ := Pagination.exists_bound MemberKind.skipKey
    fun _ hget ↦ Schema.checkMember_skipKey.symm.trans (hvalue hget)
  refine Pagination.exists_ofMembers hlimit hskip fun value hsort ↦ ?_
  refine SortTerm.exists_of_checkSort (Schema.checkMember_sortKey.symm.trans (hvalue hsort)) ?_
  intro name hname
  exact hnames name (by rwa [Json.sortNames, hsort])

end Page

/-! ### Documents -/

/-- An accepted document without the two gaps compiles onto every base and with every alias map. -/
theorem exists_compileDocument_of_accepts {s : Schema} (hs : s.NamesIdentifiers) {document : Json}
    (haccepts : s.accepts document = true) (hgaps : document.Gapless) (base : String)
    (aliases : Option AliasMap) : ∃ q, compileDocument base document aliases = .ok q := by
  obtain ⟨members, rfl, hmembers⟩ := Schema.accepts_eq_true_iff.mp haccepts
  have hread : ∀ m ∈ members, ∃ entry, Entry.ofMember m = .ok entry := by
    intro m hm
    refine Entry.exists_of_checkMember hs (hmembers m hm) fun hkind items hvalue item hitem ↦ ?_
    refine hgaps.alternatives item (List.mem_flatMap.mpr ⟨m, hm, ?_⟩)
    rwa [hkind, hvalue]
  obtain ⟨entries, hentries⟩ := exists_mapM_eq_ok hread
  obtain ⟨page, hpage⟩ := Pagination.exists_of_checkMember hmembers hgaps.sortNames
  have hfilter : Filter.ofJson (.object members) = .ok ⟨entries.filterMap id, page⟩ :=
    bind_eq_ok.mpr ⟨entries, hentries, bind_eq_ok.mpr ⟨page, hpage, rfl⟩⟩
  exact ⟨_, by rw [compileDocument, hfilter]⟩

theorem exists_compileDocument_of_accepts_group :
    let s := (Schema.empty.declare "stock" (.single .integer)).declare "title" (.single .string)
    let document : Json := .object [("stock", .object [("$gte", .int 1), ("$ne", .null)]),
      ("$or", .array [.object [("title", .string "lamp")], .object [("stock", .int 0)]]),
      ("$sort", .object [("price", .int (-1))]), ("$limit", .int 25)]
    s.NamesIdentifiers ∧ s.accepts document = true ∧ document.Gapless ∧
      ∃ q, compileDocument "SELECT 1" document none = .ok q := by
  intro s document
  have hs : s.NamesIdentifiers := by
    unfold Schema.NamesIdentifiers
    decide
  have haccepts : s.accepts document = true := by decide
  have hgaps : document.Gapless := by
    constructor
    · have halternatives : document.alternatives =
          [.object [("title", .string "lamp")], .object [("stock", .int 0)]] := rfl
      simp [halternatives]
    · decide
  exact ⟨hs, haccepts, hgaps, exists_compileDocument_of_accepts hs haccepts hgaps _ _⟩

/-- Acceptance alone does not let a document through: an alternative without members is accepted and
is no alternative, and a sort field of any name is accepted. -/
theorem not_forall_exists_compileDocument_of_accepts :
    (¬ ∀ s : Schema, s.NamesIdentifiers → ∀ document, s.accepts document = true →
      ∀ base aliases, ∃ q, compileDocument base document aliases = .ok q) ∧
    compileDocument "SELECT 1" (.object [("$or", .array [.object []])]) none =
      .error ⟨.invalidDisjunctionEntry 0⟩ ∧
    Schema.empty.accepts (.object [("$sort", .object [("a b", .int 1)])]) = true ∧
    compileDocument "SELECT 1" (.object [("$sort", .object [("a b", .int 1)])]) none =
      .error ⟨.invalidSortField "a b"⟩ := by
  refine ⟨fun h ↦ ?_, rfl, by decide, rfl⟩
  obtain ⟨q, hq⟩ := h Schema.empty (List.forall_mem_nil _) (.object [("$or", .array [.object []])])
    (by decide) "SELECT 1" none
  cases hq

/-! ### The gaps are real -/

theorem FieldCondition.ne_of_ofDisjunction {items : List Json}
    {group : Option (List FieldCondition)}
    (h : FieldCondition.ofDisjunction (.array items) = .ok group) {item : Json}
    (hitem : item ∈ items) : item ≠ .object [] := by
  obtain ⟨cs, hcs, -⟩ := map_eq_ok.mp h
  obtain ⟨c, -, m, rfl, -⟩ :=
    exists_mem_of_forall₂ (FieldCondition.forall₂_of_ofAlternatives hcs).flip hitem
  simp

theorem SortTerm.isIdentifier_of_ofJson {value : Json} {ts : List SortTerm}
    (h : SortTerm.ofJson value = .ok ts) {name : String} (hname : name ∈ value.memberNames) :
    isIdentifier name = true := by
  rcases SortTerm.cases_of_ofJson h with ⟨rfl, -⟩ | ⟨members, rfl, -⟩
  · cases hname
  · obtain ⟨m, hm, rfl⟩ := List.mem_map.mp hname
    exact SortTerm.exists_ofJson_object_iff.mp ⟨ts, h⟩ m hm

/-- Neither gap can be left open: whatever compiles has only alternatives with a member and only
identifiers as sort fields. -/
theorem gapless_of_compileDocument {base : String} {document : Json} {aliases : Option AliasMap}
    {q : Query} (h : compileDocument base document aliases = .ok q) : document.Gapless := by
  unfold compileDocument at h
  split at h
  · rename_i f hf
    obtain ⟨members, entries, rfl, hentries, -, hpage⟩ := Filter.eq_of_ofJson hf
    constructor
    · intro item hitem
      obtain ⟨m, hm, hitem⟩ := List.mem_flatMap.mp hitem
      obtain ⟨e, he⟩ := exists_of_mem_of_mapM_eq_ok hentries hm
      split at hitem
      · rename_i hkind hvalue
        rw [Entry.ofMember, hkind, hvalue] at he
        obtain ⟨group, hgroup, -⟩ := map_eq_ok.mp he
        exact FieldCondition.ne_of_ofDisjunction hgroup hitem
      · cases hitem
    · intro name hname
      rw [Json.sortNames] at hname
      cases hsort : Assoc.get? MemberKind.sortKey members with
      | none =>
        rw [hsort] at hname
        cases hname
      | some value =>
        rw [hsort] at hname
        obtain ⟨ts, hts⟩ := Pagination.exists_ofJson_of_ofMembers hpage hsort
        exact SortTerm.isIdentifier_of_ofJson hts hname
  · cases h

end RowFilter
