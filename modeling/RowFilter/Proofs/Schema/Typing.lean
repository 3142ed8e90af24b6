import RowFilter.Proofs.Filter.Shape
import RowFilter.Proofs.Schema.Gate
import RowFilter.Proofs.Sql.ReadBack

/-!
What an accepted document binds. A value that was accepted under a field is followed through the
reader into the predicates of that field and through their numbers into the text: behind the base of
a compiled statement stands a tail whose condition has only columns of declared fields, compared
with null or with values of the declared types, and whose page is bounded by null or by whole
numbers from zero on (`exists_typed_tail_of_accepts`). The number of a value depends on all entries
before it, so typing is stated of tails over anything that leads to values, and carried from the
values that a filter asks for to the numbers by `Tail.typed_map`.
-/

set_option autoImplicit false

namespace RowFilter

/-! ### Typed tails -/

/-- A value that may be compared with a field of the type. -/
def FieldType.Admits (type : FieldType) (v : Scalar) : Prop :=
  v = .null ∨ type.accepts (.scalar v) = true

/-- A value that may bound a page. -/
def Scalar.IsBound (v : Scalar) : Prop := v = .null ∨ ∃ n, v.toInt? = some n ∧ 0 ≤ n

/-- The value that is bound to a placeholder. -/
def Query.value? (q : Query) : Nat → Option Scalar
  | 0 => none
  | n + 1 => q.values[n]?

namespace Sql

variable {α β : Type} {s : Schema}

/-- The column is a declared field, and whatever it is compared with is admitted by its type. -/
def Term.Typed (s : Schema) (value? : α → Option Scalar) (t : Term α) : Prop :=
  ∃ type, s.type? t.column.field.text = some type ∧
    ∀ a ∈ t.operands, ∃ v, value? a = some v ∧ type.Admits v

/-- All terms are typed, and the page has bounds. -/
structure Tail.Typed (s : Schema) (value? : α → Option Scalar) (t : Tail α) : Prop where
  terms : ∀ k ∈ t.conjuncts, ∀ term ∈ k.terms, term.Typed s value?
  limit : ∃ v, value? t.limit = some v ∧ v.IsBound
  skip : ∀ a ∈ t.skip, ∃ v, value? a = some v ∧ v.IsBound

theorem Test.operands_map (f : α → β) (t : Test α) : (t.map f).operands = t.operands.map f := by
  cases t <;> rfl

theorem Conjunct.terms_map (f : α → β) (k : Conjunct α) :
    (k.map f).terms = k.terms.map (Term.map f) := by
  cases k <;> rfl

theorem Term.typed_map {f : α → β} {value? : β → Option Scalar} {t : Term α} :
    (t.map f).Typed s value? ↔ t.Typed s (value? ∘ f) := by
  have hoperands : (t.map f).operands = t.operands.map f := Test.operands_map f t.test
  simp only [Typed, hoperands, List.forall_mem_map]
  rfl

/-- Changing what stands for the values changes how they are found. -/
theorem Tail.typed_map {f : α → β} {value? : β → Option Scalar} {t : Tail α} :
    (t.map f).Typed s value? ↔ t.Typed s (value? ∘ f) := by
  have hterms : (∀ k ∈ (t.map f).conjuncts, ∀ term ∈ k.terms, term.Typed s value?) ↔
      ∀ k ∈ t.conjuncts, ∀ term ∈ k.terms, term.Typed s (value? ∘ f) := by
    simp only [map, List.forall_mem_map, Conjunct.terms_map, Term.typed_map]
  have hskip : (∀ b ∈ t.skip.map f, ∃ v, value? b = some v ∧ v.IsBound) ↔
      ∀ a ∈ t.skip, ∃ v, value? (f a) = some v ∧ v.IsBound := by
    cases t.skip <;> simp
  exact ⟨fun h ↦ ⟨hterms.mp h.terms, h.limit, hskip.mp h.skip⟩,
    fun h ↦ ⟨hterms.mpr h.terms, h.limit, hskip.mpr h.skip⟩⟩

end Sql

/-! ### Conditions on declared fields -/

section Conditions

variable {s : Schema} {type : FieldType} {value : Json}

/-- A predicate on a declared field whose operands the type admits. -/
def Sql.Predicate.Typed (s : Schema) (p : Sql.Predicate Scalar) : Prop :=
  ∃ type, s.type? p.field.text = some type ∧ ∀ v ∈ p.operands, type.Admits v

theorem Comparison.admits_of_checkOperand {field : Identifier} {member : String × Json}
    {c : Comparison} (hcheck : Schema.checkOperand type member.1 member.2 = [])
    (h : Comparison.ofMember field member = .ok c) : type.Admits c.operand := by
  obtain ⟨directive, value⟩ := member
  obtain ⟨-, hvalue⟩ := Schema.checkOperand_eq_nil_iff.mp hcheck
  unfold Comparison.ofMember at h
  split at h
  · cases h
  · rename_i heq
    cases h
    obtain rfl : value = .scalar _ := heq
    refine hvalue.imp_left fun hnull ↦ ?_
    exact Json.scalar.inj hnull
  · cases h

/-- A test that a condition asks for binds an operand of the condition. -/
theorem Condition.admits_of_checkField {field : Identifier} {c : Condition}
    (hcheck : Schema.checkField type value = []) (h : Condition.ofJson field value = .ok c) :
    ∀ test ∈ c.tests, ∀ v ∈ test.operands, type.Admits v := by
  rw [Condition.tests_eq]
  rcases Schema.checkField_eq_nil_iff.mp hcheck with haccepts | ⟨directives, rfl, hoperands⟩
  · obtain ⟨t, rfl⟩ := FieldType.exists_scalar_of_accepts haccepts
    cases h
    intro test htest v hv
    by_cases hnull : t = .null
    · subst hnull
      obtain rfl := List.mem_singleton.mp htest
      cases hv
    · rw [Condition.ofScalar_of_ne_null hnull, Sql.Test.ofCondition_equals hnull] at htest
      obtain rfl := List.mem_singleton.mp htest
      obtain rfl := List.mem_singleton.mp hv
      exact .inr haccepts
  · obtain ⟨cs, hcs, rfl⟩ := map_eq_ok.mp h
    refine List.forall_mem_map.mpr fun c hc v hv ↦ ?_
    obtain ⟨member, hmember, hread⟩ := exists_mem_of_forall₂ (forall₂_of_mapM_eq_ok hcs) hc
    have hadmits := Comparison.admits_of_checkOperand (hoperands member hmember) hread
    unfold Sql.Test.ofComparison at hv
    split at hv
    · cases hv
    · obtain rfl := List.mem_singleton.mp hv
      exact hadmits

theorem FieldCondition.typed_of_checkDeclared {member : String × Json} {c : FieldCondition}
    (hcheck : s.checkDeclared member.1 member.2 = []) (h : FieldCondition.ofMember member = .ok c) :
    ∀ p ∈ c.predicates, p.Typed s := by
  obtain ⟨type, htype, hfield⟩ := Schema.checkDeclared_eq_nil_iff.mp hcheck
  obtain ⟨hname, hcondition⟩ := FieldCondition.eq_of_ofMember h
  refine List.forall_mem_map.mpr fun test htest ↦ ⟨type, hname ▸ htype, ?_⟩
  exact Condition.admits_of_checkField hfield hcondition test htest

theorem FieldCondition.typed_of_checkAlternative {item : Json} {member : String × Json}
    {c : FieldCondition} (hitem : item = .object [member]) (hcheck : s.checkAlternative item = [])
    (h : FieldCondition.ofMember member = .ok c) : ∀ p ∈ c.predicates, p.Typed s := by
  obtain ⟨members, hmembers, -, hdeclared⟩ := Schema.checkAlternative_eq_nil_iff.mp hcheck
  obtain rfl : [member] = members := Json.object.inj (hitem.symm.trans hmembers)
  exact FieldCondition.typed_of_checkDeclared (hdeclared member List.mem_cons_self) h

theorem Entry.typed_of_checkMember {member : String × Json} {e : Entry}
    (hcheck : s.checkMember member.1 member.2 = []) (h : Entry.ofMember member = .ok (some e)) :
    ∀ p ∈ e.predicates, p.Typed s := by
  rcases Entry.cases_of_ofMember h with ⟨hkind, items, cs, hitems, hcs, rfl⟩ | ⟨hkind, c, hc, rfl⟩
  · rw [Schema.checkMember_of_disjunction hkind, hitems] at hcheck
    obtain ⟨items', heq, halternatives⟩ := Schema.checkDisjunction_eq_nil_iff.mp hcheck
    obtain rfl : items = items' := Json.array.inj heq
    intro p hp
    obtain ⟨c, hc, hp⟩ := List.mem_flatMap.mp hp
    obtain ⟨item, hitem, m, hobject, hread⟩ :=
      exists_mem_of_forall₂ (FieldCondition.forall₂_of_ofAlternatives hcs) hc
    exact FieldCondition.typed_of_checkAlternative hobject (halternatives item hitem) hread p hp
  · rw [Schema.checkMember_of_field hkind] at hcheck
    exact FieldCondition.typed_of_checkDeclared hcheck hc

end Conditions

/-! ### The page -/

theorem Pagination.isBound_of_checkBound {key : String} {members : List (String × Json)}
    {bound : Option Scalar}
    (hcheck : ∀ value, Assoc.get? key members = some value → Schema.checkBound value = [])
    (h : Pagination.bound key members = .ok bound) : ∀ v ∈ bound, v.IsBound := by
  unfold Pagination.bound at h
  split at h
  · cases h
    exact fun _ hv ↦ nomatch hv
  · rename_i t hvalue
    cases h
    intro v hv
    cases hv
    rcases Schema.checkBound_eq_nil_iff.mp (hcheck _ hvalue) with hnull | hwhole
    · exact .inl (Json.scalar.inj hnull)
    · exact .inr hwhole
  · cases h

/-! ### Filters -/

namespace Filter

variable {s : Schema} {f : Filter}

/-- A term of the condition is a predicate of an entry on its column. -/
theorem exists_predicate_of_mem_conjuncts {aliases : Option AliasMap} {k : Sql.Conjunct Scalar}
    (hk : k ∈ (f.boundTail aliases).conjuncts) {t : Sql.Term Scalar} (ht : t ∈ k.terms) :
    ∃ e ∈ f.entries, ∃ p ∈ e.predicates, .ofPredicate (Column.of aliases) p = t := by
  rw [← ofTemplate_ofFilter] at hk
  obtain ⟨c, hc, hk⟩ := Sql.Tail.mem_conjuncts_ofTemplate.mp hk
  obtain ⟨e, he, rfl⟩ := List.mem_map.mp hc
  obtain ⟨p, hp, hterm⟩ := (Sql.Conjunct.exists_mem_terms_iff _).mp ⟨k, hk, ht⟩
  exact ⟨e, he, p, e.predicates_eq ▸ hp, hterm⟩

theorem typed_boundTail {document : Json} (haccepts : s.accepts document = true)
    (h : Filter.ofJson document = .ok f) (aliases : Option AliasMap) :
    (f.boundTail aliases).Typed s some := by
  obtain ⟨members, rfl, hmembers⟩ := Schema.accepts_eq_true_iff.mp haccepts
  obtain ⟨_, _, hdocument, -, -, hpage⟩ := Filter.eq_of_ofJson h
  cases hdocument
  obtain ⟨hlimit, hskip⟩ := Pagination.bounds_of_ofMembers hpage
  have hvalue {key : String} {value : Json} (hget : Assoc.get? key members = some value) :
      s.checkMember key value = [] := hmembers _ (Assoc.mem_of_get?_eq_some hget)
  refine ⟨fun k hk t ht ↦ ?_, ⟨_, rfl, ?_⟩, fun v hv ↦ ⟨v, rfl, ?_⟩⟩
  · obtain ⟨e, he, p, hp, rfl⟩ := exists_predicate_of_mem_conjuncts hk ht
    obtain ⟨member, hmember, hentry⟩ := Filter.exists_member_of_mem_entries h he
    obtain ⟨type, htype, hadmits⟩ :=
      Entry.typed_of_checkMember (hmembers member hmember) hentry p hp
    exact ⟨type, htype, fun v hv ↦ ⟨v, rfl, hadmits v hv⟩⟩
  · have hbound := Pagination.isBound_of_checkBound (fun _ hget ↦
      Schema.checkMember_limitKey.symm.trans (hvalue hget)) hlimit
    show (f.pagination.limit.getD (.int 10)).IsBound
    cases hcase : f.pagination.limit with
    | none => exact .inr ⟨10, rfl, by decide⟩
    | some v => exact hbound v hcase
  · exact Pagination.isBound_of_checkBound (fun _ hget ↦
      Schema.checkMember_skipKey.symm.trans (hvalue hget)) hskip v hv

/-- Each placeholder of the tail stands for the value that the filter asks for in its place. -/
theorem map_tail_value? (f : Filter) (base : String) (aliases : Option AliasMap) :
    (f.tail aliases).map (f.compile base aliases).value? = (f.boundTail aliases).map some := by
  have hleads : Sql.LeadsTo (f.compile base aliases).value? Sql.firstPlaceholder
      (Sql.Template.ofFilter f).operands := by
    intro i _
    rw [Sql.firstPlaceholder, Nat.add_comm]
    rfl
  rw [tail, Sql.Tail.map_ofTemplate, ← ofTemplate_ofFilter, Sql.Tail.map_ofTemplate]
  exact congrArg _ (Sql.Template.map_numbered hleads)

theorem typed_tail {document : Json} (haccepts : s.accepts document = true)
    (h : Filter.ofJson document = .ok f) (base : String) (aliases : Option AliasMap) :
    (f.tail aliases).Typed s (f.compile base aliases).value? := by
  have hbound : ((f.boundTail aliases).map some).Typed s id :=
    Sql.Tail.typed_map.mpr (typed_boundTail haccepts h aliases)
  rw [← f.map_tail_value? base aliases] at hbound
  exact Sql.Tail.typed_map.mp hbound

end Filter

/-- Behind the base, the statement of an accepted document reads as a tail whose columns in the
condition are declared fields, whose values there are null or of the types of these fields, and
whose bounds of the page are null or whole numbers from zero on. -/
theorem exists_typed_tail_of_accepts {s : Schema} {document : Json}
    (haccepts : s.accepts document = true) {base : String} {aliases : Option AliasMap} {q : Query}
    (hq : compileDocument base document aliases = .ok q) :
    ∃ text t, q.sql = Text.trim base ++ Sql.gap base ++ String.ofList text ∧
      Sql.Tail.read? text = some t ∧ t.Typed s q.value? := by
  unfold compileDocument at hq
  split at hq
  · rename_i f hf
    cases hq
    refine ⟨(f.tail aliases).text, f.tail aliases, f.sql_compile_eq base aliases, ?_,
      Filter.typed_tail haccepts hf base aliases⟩
    exact Sql.Tail.read?_text (Sql.Tail.filled_ofTemplate _ _)
  · cases hq

theorem exists_typed_tail_of_accepts_group :
    let s := (Schema.empty.declare "stock" (.single .integer)).declare "title"
      (.union [.string, .boolean])
    let document : Json := .object
      [("stock", .object [("$gte", .int 1), ("$ne", .null), ("$gt", .null)]),
        ("$or", .array [.object [("title", .string "")], .object [("stock", .int 0)]]),
        ("$skip", .null), ("$sort", .object [("price", .int 1)])]
    let q : Query := ⟨"SELECT 1 WHERE (title = $3 OR stock = $4) AND stock >= $1 AND " ++
      "stock IS NOT NULL AND stock > $2 ORDER BY price ASC LIMIT $5 OFFSET $6",
        [.int 1, .null, .string "", .int 0, .int 10, .null]⟩
    s.accepts document = true ∧ compileDocument "SELECT 1" document none = .ok q ∧
      ∃ text t, q.sql = Text.trim "SELECT 1" ++ Sql.gap "SELECT 1" ++ String.ofList text ∧
        Sql.Tail.read? text = some t ∧ t.Typed s q.value? := by
  intro s document q
  have haccepts : s.accepts document = true := by decide
  have hq : compileDocument "SELECT 1" document none = .ok q := rfl
  exact ⟨haccepts, hq, exists_typed_tail_of_accepts haccepts hq⟩

end RowFilter
