import RowFilter.Proofs.Assoc
import RowFilter.Proofs.Filter.Reading

/-!
Filters as documents. A filter is written member by member: its entries in order, then its page. What
is read back is the same filter, provided that the filter is one that can be read at all: an object
has no name twice, so a filter that was read has no field, operator or sort field twice and at most
one group, and a null is read as the test for null and not as an equality. These restrictions are
`Filter.Canonical`. Each part of a filter has two lemmas, one for what is read (`canonical_of_…`) and
one for what is written and read back (`of…_to…`).
-/

set_option autoImplicit false

namespace RowFilter

/-! ### Documents -/

/-- No object of the document has a name twice. -/
inductive Json.Distinct : Json → Prop
  | scalar (s : Scalar) : Distinct (.scalar s)
  | array {items : List Json} (values : ∀ item ∈ items, Distinct item) : Distinct (.array items)
  | object {members : List (String × Json)} (nodup : (members.map Prod.fst).Nodup)
      (values : ∀ m ∈ members, Distinct m.2) : Distinct (.object members)

namespace Json.Distinct

theorem nodup_names {members : List (String × Json)} (h : (Json.object members).Distinct) :
    (members.map Prod.fst).Nodup := by
  cases h with
  | object nodup _ => exact nodup

theorem member {members : List (String × Json)} (h : (Json.object members).Distinct) :
    ∀ m ∈ members, m.2.Distinct := by
  cases h with
  | object _ values => exact values

theorem item {items : List Json} (h : (Json.array items).Distinct) :
    ∀ item ∈ items, item.Distinct := by
  cases h with
  | array values => exact values

theorem singleton {member : String × Json} (h : member.2.Distinct) :
    (Json.object [member]).Distinct :=
  .object (List.nodup_singleton _) fun _ hm ↦ List.mem_singleton.mp hm ▸ h

end Json.Distinct

/-! ### Writing -/

def Comparison.toMember (c : Comparison) : String × Json := (c.operator.directive, .scalar c.operand)

def Condition.toJson : Condition → Json
  | .equals s => .scalar s
  | .isNull => .null
  | .compare cs => .object (cs.map Comparison.toMember)

def FieldCondition.toMember (c : FieldCondition) : String × Json :=
  (c.field.text, c.condition.toJson)

/-- The name under which an entry is written. -/
def Entry.name : Entry → String
  | .field c => c.field.text
  | .anyOf _ => MemberKind.disjunctionKey

/-- A condition is written as itself, a group as a list of objects with one member each. -/
def Entry.toJson : Entry → Json
  | .field c => c.condition.toJson
  | .anyOf cs => .array (cs.map fun c ↦ .object [c.toMember])

def Entry.toMember (e : Entry) : String × Json := (e.name, e.toJson)

def Direction.toJson : Direction → Json
  | .asc => .int 1
  | .desc => .int (-1)

def SortTerm.toMember (t : SortTerm) : String × Json := (t.field.text, t.direction.toJson)

/-- A bound that was left out is not written; one that was supplied as null is written as null. -/
def Pagination.toMembers (p : Pagination) : List (String × Json) :=
  (p.limit.map fun s ↦ (MemberKind.limitKey, .scalar s)).toList ++
    (p.skip.map fun s ↦ (MemberKind.skipKey, .scalar s)).toList ++
      [(MemberKind.sortKey, .object (p.sort.map SortTerm.toMember))]

/-- The document of a filter: its entries in order, and behind them its page. -/
def Filter.toJson (f : Filter) : Json :=
  .object (f.entries.map Entry.toMember ++ f.pagination.toMembers)

/-! ### What can be read -/

/-- Nothing is asked to equal null, and no operator is asked for twice. -/
def Condition.Canonical : Condition → Prop
  | .equals s => s ≠ .null
  | .isNull => True
  | .compare cs => (cs.map Comparison.operator).Nodup

instance : DecidablePred Condition.Canonical
  | .equals s => inferInstanceAs (Decidable (s ≠ .null))
  | .isNull => inferInstanceAs (Decidable True)
  | .compare cs => inferInstanceAs (Decidable (cs.map Comparison.operator).Nodup)

/-- The conditions of an entry, of a group those of its alternatives. -/
def Entry.conditions : Entry → List Condition
  | .field c => [c.condition]
  | .anyOf cs => cs.map FieldCondition.condition

def Entry.isGroup : Entry → Bool
  | .field _ => false
  | .anyOf _ => true

/-- The field of an entry that is no group. -/
def Entry.field? : Entry → Option Identifier
  | .field c => some c.field
  | .anyOf _ => none

/-- No field and no sort field occurs twice, there is at most one group, and all conditions are such
as are read. -/
structure Filter.Canonical (f : Filter) : Prop where
  fields_nodup : (f.entries.filterMap Entry.field?).Nodup
  groups_le_one : f.entries.countP Entry.isGroup ≤ 1
  conditions : ∀ e ∈ f.entries, ∀ c ∈ e.conditions, c.Canonical
  sort_nodup : (f.pagination.sort.map SortTerm.field).Nodup

/-! ### Names of entries -/

theorem Identifier.text_injective : Function.Injective Identifier.text := by
  rintro ⟨s, _⟩ ⟨t, _⟩ h
  cases h
  rfl

theorem Identifier.text_ne_disjunctionKey (i : Identifier) : i.text ≠ MemberKind.disjunctionKey := by
  intro h
  have hkind := MemberKind.ofKey_of_isIdentifier i.valid
  rw [h] at hkind
  cases hkind

theorem Entry.text_mem_names_iff {i : Identifier} {es : List Entry} :
    i.text ∈ es.map Entry.name ↔ i ∈ es.filterMap Entry.field? := by
  rw [List.mem_map, List.mem_filterMap]
  refine exists_congr fun e ↦ and_congr_right fun _ ↦ ?_
  cases e with
  | field c => exact Identifier.text_injective.eq_iff.trans Option.some_inj.symm
  | anyOf cs => exact iff_of_false (Ne.symm i.text_ne_disjunctionKey) (Option.some_ne_none i).symm

theorem Entry.disjunctionKey_notMem_names_iff {es : List Entry} :
    MemberKind.disjunctionKey ∉ es.map Entry.name ↔ es.countP Entry.isGroup = 0 := by
  rw [List.countP_eq_zero, List.mem_map, not_exists]
  refine forall_congr' fun e ↦ not_and.trans (forall_congr' fun _ ↦ not_congr ?_)
  cases e with
  | field c => exact iff_of_false c.field.text_ne_disjunctionKey Bool.noConfusion
  | anyOf cs => exact iff_of_true rfl rfl

/-- The names of entries are distinct exactly when no field is named twice and there is at most one
group. -/
theorem Entry.nodup_names_iff {es : List Entry} :
    (es.map Entry.name).Nodup ↔
      (es.filterMap Entry.field?).Nodup ∧ es.countP Entry.isGroup ≤ 1 := by
  induction es with
  | nil => simp
  | cons e rest ih =>
    rw [List.map_cons, List.nodup_cons, ih]
    cases e with
    | field c =>
      have hname : (Entry.field c).name = c.field.text := rfl
      have hgroup : (Entry.field c).isGroup ≠ true := Bool.noConfusion
      rw [hname, Entry.text_mem_names_iff, List.countP_cons_of_neg hgroup, ← and_assoc,
        ← List.nodup_cons]
      rfl
    | anyOf cs =>
      have hname : (Entry.anyOf cs).name = MemberKind.disjunctionKey := rfl
      have hfields : (Entry.anyOf cs :: rest).filterMap Entry.field? =
          rest.filterMap Entry.field? := rfl
      have hgroups : (Entry.anyOf cs :: rest).countP Entry.isGroup =
          rest.countP Entry.isGroup + 1 := List.countP_cons_of_pos rfl
      rw [hname, Entry.disjunctionKey_notMem_names_iff, hfields, hgroups]
      constructor
      · rintro ⟨hnone, hnodup, -⟩
        exact ⟨hnodup, by omega⟩
      · rintro ⟨hnodup, hone⟩
        exact ⟨by omega, hnodup, by omega⟩

/-! ### What is read is canonical -/

theorem Comparison.directive_of_ofMember {field : Identifier} {member : String × Json}
    {c : Comparison} (h : Comparison.ofMember field member = .ok c) :
    c.operator.directive = member.1 := by
  unfold Comparison.ofMember at h
  split at h
  · cases h
  · rename_i hoperator _
    cases h
    exact Operator.directive_of_ofDirective? hoperator
  · cases h

/-- A list read item by item has the names of its items. -/
theorem map_eq_map_of_forall₂ {α β γ : Type} {r : α → β → Prop} {f : α → γ} {g : β → γ}
    {as : List α} {bs : List β} (h : List.Forall₂ r as bs) (hr : ∀ a b, r a b → g b = f a) :
    bs.map g = as.map f := by
  induction h with
  | nil => rfl
  | cons hab _ ih => rw [List.map_cons, List.map_cons, hr _ _ hab, ih]

theorem Condition.canonical_of_ofJson {field : Identifier} {value : Json} (hvalue : value.Distinct)
    {c : Condition} (h : Condition.ofJson field value = .ok c) : c.Canonical := by
  cases value with
  | scalar s =>
    cases h
    cases s with
    | null => trivial
    | bool b => exact Scalar.noConfusion
    | number n => exact Scalar.noConfusion
    | string t => exact Scalar.noConfusion
  | array items => cases h
  | object directives =>
    obtain ⟨cs, hcs, rfl⟩ := map_eq_ok.mp h
    have hdirectives : (cs.map Comparison.operator).map Operator.directive =
        directives.map Prod.fst := by
      rw [List.map_map]
      exact map_eq_map_of_forall₂ (forall₂_of_mapM_eq_ok hcs) fun _ _ ↦
        Comparison.directive_of_ofMember
    exact List.Nodup.of_map Operator.directive (hdirectives ▸ hvalue.nodup_names)

theorem Entry.canonical_of_ofMember {member : String × Json} (hmember : member.2.Distinct)
    {e : Entry} (h : Entry.ofMember member = .ok (some e)) : ∀ c ∈ e.conditions, c.Canonical := by
  intro condition hcondition
  rcases Entry.cases_of_ofMember h with ⟨-, items, cs, hitems, hcs, rfl⟩ | ⟨-, c, hc, rfl⟩
  · obtain ⟨c, hc, rfl⟩ := List.mem_map.mp hcondition
    obtain ⟨item, hitem, inner, rfl, hinner⟩ :=
      exists_mem_of_forall₂ (FieldCondition.forall₂_of_ofAlternatives hcs) hc
    rw [hitems] at hmember
    have hvalue := (hmember.item _ hitem).member inner (List.mem_singleton_self inner)
    exact Condition.canonical_of_ofJson hvalue (FieldCondition.eq_of_ofMember hinner).2
  · rw [List.mem_singleton.mp hcondition]
    exact Condition.canonical_of_ofJson hmember (FieldCondition.eq_of_ofMember hc).2

theorem Entry.name_of_ofMember {member : String × Json} {e : Entry}
    (h : Entry.ofMember member = .ok (some e)) : e.name = member.1 := by
  rcases Entry.cases_of_ofMember h with ⟨hkind, _, _, -, -, rfl⟩ | ⟨-, c, hc, rfl⟩
  · exact (MemberKind.eq_of_ofKey_disjunction hkind).symm
  · exact (FieldCondition.eq_of_ofMember hc).1

/-- The names of the entries are among the names of the members, in the same order. -/
theorem Entry.names_sublist {members : List (String × Json)} {entries : List (Option Entry)}
    (h : List.Forall₂ (fun m e ↦ Entry.ofMember m = .ok e) members entries) :
    ((entries.filterMap id).map Entry.name).Sublist (members.map Prod.fst) := by
  induction h with
  | nil => exact List.Sublist.slnil
  | @cons member e _ _ hread _ ih =>
    cases e with
    | none => exact ih.cons _
    | some e =>
      have hname := Entry.name_of_ofMember hread
      rw [List.filterMap_cons_some (f := id) rfl, List.map_cons, List.map_cons, hname]
      exact ih.cons_cons member.1

theorem SortTerm.nodup_of_ofJson {value : Json} (hvalue : value.Distinct) {ts : List SortTerm}
    (h : SortTerm.ofJson value = .ok ts) : (ts.map SortTerm.field).Nodup := by
  rcases SortTerm.cases_of_ofJson h with ⟨-, rfl⟩ | ⟨members, rfl, hterms⟩
  · exact List.nodup_nil
  · have hnames : (ts.map SortTerm.field).map Identifier.text = members.map Prod.fst := by
      rw [List.map_map]
      exact map_eq_map_of_forall₂ hterms fun _ _ ht ↦ (SortTerm.eq_of_ofMember ht).1
    exact List.Nodup.of_map Identifier.text (hnames ▸ hvalue.nodup_names)

theorem Filter.canonical_of_ofJson {document : Json} (hdocument : document.Distinct) {f : Filter}
    (h : Filter.ofJson document = .ok f) : f.Canonical := by
  obtain ⟨members, entries, rfl, hentries, hfilter, hpage⟩ := Filter.eq_of_ofJson h
  have hnames : (f.entries.map Entry.name).Nodup := by
    rw [hfilter]
    exact hdocument.nodup_names.sublist (Entry.names_sublist (forall₂_of_mapM_eq_ok hentries))
  obtain ⟨hfields, hgroups⟩ := Entry.nodup_names_iff.mp hnames
  refine ⟨hfields, hgroups, fun e he ↦ ?_, ?_⟩
  · obtain ⟨member, hmember, hread⟩ := Filter.exists_member_of_mem_entries h he
    exact Entry.canonical_of_ofMember (hdocument.member member hmember) hread
  · rcases Pagination.sort_of_ofMembers hpage with hnone | ⟨value, hvalue, hsort⟩
    · rw [hnone]
      exact List.nodup_nil
    · have hmember := Assoc.mem_of_get?_eq_some hvalue
      exact SortTerm.nodup_of_ofJson (hdocument.member _ hmember) hsort

/-! ### What is written is read back -/

theorem Comparison.ofMember_toMember (field : Identifier) (c : Comparison) :
    Comparison.ofMember field c.toMember = .ok c := by
  simp only [ofMember, toMember, Operator.ofDirective?_directive]

theorem Condition.ofJson_toJson (field : Identifier) {c : Condition} (h : c.Canonical) :
    Condition.ofJson field c.toJson = .ok c := by
  cases c with
  | equals s =>
    cases s with
    | null => exact absurd rfl h
    | bool b => rfl
    | number n => rfl
    | string t => rfl
  | isNull => rfl
  | compare cs =>
    have hcs : (cs.map Comparison.toMember).mapM (Comparison.ofMember field) = .ok cs :=
      mapM_map_eq_ok fun c _ ↦ Comparison.ofMember_toMember field c
    exact map_eq_ok.mpr ⟨cs, hcs, rfl⟩

theorem FieldCondition.ofMember_toMember {c : FieldCondition} (h : c.condition.Canonical) :
    FieldCondition.ofMember c.toMember = .ok c := by
  have hfield : Identifier.ofFieldName c.field.text = .ok c.field := by
    rw [Identifier.ofFieldName, Identifier.ofString?_eq_some_iff.mpr rfl]
  exact bind_eq_ok.mpr ⟨c.field, hfield, bind_eq_ok.mpr
    ⟨c.condition, Condition.ofJson_toJson c.field h, rfl⟩⟩

theorem FieldCondition.ofAlternatives_map {cs : List FieldCondition}
    (h : ∀ c ∈ cs, c.condition.Canonical) (index : Nat) :
    FieldCondition.ofAlternatives index (cs.map fun c ↦ .object [c.toMember]) = .ok cs := by
  induction cs generalizing index with
  | nil => rfl
  | cons c rest ih =>
    obtain ⟨hc, hrest⟩ := List.forall_mem_cons.mp h
    exact bind_eq_ok.mpr ⟨c, FieldCondition.ofMember_toMember hc, bind_eq_ok.mpr
      ⟨rest, ih hrest (index + 1), rfl⟩⟩

theorem Entry.ofMember_toMember {e : Entry} (h : ∀ c ∈ e.conditions, c.Canonical) :
    Entry.ofMember e.toMember = .ok (some e) := by
  cases e with
  | field c =>
    have hc : FieldCondition.ofMember c.toMember = .ok c :=
      FieldCondition.ofMember_toMember (h _ (List.mem_singleton_self _))
    rw [Entry.ofMember, toMember, name, MemberKind.ofKey_of_isIdentifier c.field.valid]
    exact map_eq_ok.mpr ⟨c, hc, rfl⟩
  | anyOf cs =>
    have hcs := FieldCondition.ofAlternatives_map (List.forall_mem_map.mp h) 0
    exact map_eq_ok.mpr ⟨some cs, map_eq_ok.mpr ⟨cs, hcs, rfl⟩, rfl⟩

theorem Direction.ofJson_toJson (d : Direction) : Direction.ofJson d.toJson = d := by
  cases d <;> rfl

theorem SortTerm.ofMember_toMember (t : SortTerm) : SortTerm.ofMember t.toMember = .ok t := by
  simp only [ofMember, toMember, Identifier.ofString?_eq_some_iff.mpr rfl,
    Direction.ofJson_toJson]

namespace Pagination

theorem names_toMembers_sublist (p : Pagination) :
    (p.toMembers.map Prod.fst).Sublist
      [MemberKind.limitKey, MemberKind.skipKey, MemberKind.sortKey] := by
  obtain ⟨limit, skip, sort⟩ := p
  cases limit <;> cases skip <;> simp [toMembers]

theorem bound_limitKey_toMembers (p : Pagination) :
    bound MemberKind.limitKey p.toMembers = .ok p.limit := by
  obtain ⟨limit, skip, sort⟩ := p
  cases limit <;> cases skip <;> rfl

theorem bound_skipKey_toMembers (p : Pagination) :
    bound MemberKind.skipKey p.toMembers = .ok p.skip := by
  obtain ⟨limit, skip, sort⟩ := p
  cases limit <;> cases skip <;> rfl

theorem get?_sortKey_toMembers (p : Pagination) :
    Assoc.get? MemberKind.sortKey p.toMembers =
      some (.object (p.sort.map SortTerm.toMember)) := by
  obtain ⟨limit, skip, sort⟩ := p
  cases limit <;> cases skip <;> rfl

theorem nodup_names_toMembers (p : Pagination) : (p.toMembers.map Prod.fst).Nodup := by
  have hkeys : [MemberKind.limitKey, MemberKind.skipKey, MemberKind.sortKey].Nodup := by decide
  exact hkeys.sublist p.names_toMembers_sublist

theorem ofKey_of_mem_toMembers {p : Pagination} {member : String × Json}
    (h : member ∈ p.toMembers) : MemberKind.ofKey member.1 = .pagination := by
  have hkeys : ∀ key ∈ [MemberKind.limitKey, MemberKind.skipKey, MemberKind.sortKey],
      MemberKind.ofKey key = .pagination := by decide
  exact hkeys _ (p.names_toMembers_sublist.subset (List.mem_map_of_mem h))

/-- Members that are no paging directives do not matter to the page. -/
theorem ofMembers_append_toMembers {front : List (String × Json)}
    (hfront : ∀ m ∈ front, MemberKind.ofKey m.1 ≠ .pagination) (p : Pagination) :
    ofMembers (front ++ p.toMembers) = .ok p := by
  have hget (key : String) (hkey : MemberKind.ofKey key = .pagination) :
      Assoc.get? key (front ++ p.toMembers) = Assoc.get? key p.toMembers := by
    refine Assoc.get?_append_of_ne (fun m hm heq ↦ hfront m hm ?_) _
    rw [heq, hkey]
  have hlimit : bound MemberKind.limitKey (front ++ p.toMembers) = .ok p.limit := by
    rw [bound, hget _ rfl]
    exact p.bound_limitKey_toMembers
  have hskip : bound MemberKind.skipKey (front ++ p.toMembers) = .ok p.skip := by
    rw [bound, hget _ rfl]
    exact p.bound_skipKey_toMembers
  have hsort : SortTerm.ofJson (.object (p.sort.map SortTerm.toMember)) = .ok p.sort :=
    mapM_map_eq_ok fun t _ ↦ SortTerm.ofMember_toMember t
  rw [ofMembers, hlimit, hskip, hget _ rfl, get?_sortKey_toMembers]
  exact bind_eq_ok.mpr ⟨p.limit, rfl, bind_eq_ok.mpr ⟨p.skip, rfl, bind_eq_ok.mpr
    ⟨p.sort, hsort, rfl⟩⟩⟩

end Pagination

theorem Entry.ofKey_name_ne (e : Entry) : MemberKind.ofKey e.name ≠ .pagination := by
  cases e with
  | field c =>
    rw [name, MemberKind.ofKey_of_isIdentifier c.field.valid]
    exact MemberKind.noConfusion
  | anyOf cs => exact MemberKind.noConfusion

/-- A canonical filter is read back from the document that it is written as. -/
theorem Filter.ofJson_toJson {f : Filter} (h : f.Canonical) : Filter.ofJson f.toJson = .ok f := by
  have hentries : (f.entries.map Entry.toMember).mapM Entry.ofMember = .ok (f.entries.map some) := by
    rw [List.mapM_map]
    exact mapM_eq_ok_map fun e he ↦ Entry.ofMember_toMember (h.conditions e he)
  have hpage : f.pagination.toMembers.mapM Entry.ofMember =
      .ok (f.pagination.toMembers.map fun _ ↦ none) := by
    refine mapM_eq_ok_map fun m hm ↦ ?_
    rw [Entry.ofMember, Pagination.ofKey_of_mem_toMembers hm]
  have hmembers : (f.entries.map Entry.toMember ++ f.pagination.toMembers).mapM Entry.ofMember =
      .ok (f.entries.map some ++ f.pagination.toMembers.map fun _ ↦ none) := by
    rw [List.mapM_append, hentries, hpage]
    rfl
  have hpagination : Pagination.ofMembers (f.entries.map Entry.toMember ++ f.pagination.toMembers) =
      .ok f.pagination := by
    refine Pagination.ofMembers_append_toMembers (List.forall_mem_map.mpr fun e _ ↦ ?_) _
    exact e.ofKey_name_ne
  have hkept : (f.entries.map some ++ f.pagination.toMembers.map fun _ ↦ none).filterMap id =
      f.entries := by
    simp [List.filterMap_append]
  refine bind_eq_ok.mpr ⟨_, hmembers, bind_eq_ok.mpr ⟨f.pagination, hpagination, ?_⟩⟩
  rw [hkept]
  rfl

/-! ### What is written has no name twice -/

theorem Operator.directive_injective : Function.Injective Operator.directive := by
  intro first second h
  have hread := Operator.ofDirective?_directive first
  rw [h, Operator.ofDirective?_directive] at hread
  exact (Option.some.inj hread).symm

theorem Condition.distinct_toJson {c : Condition} (h : c.Canonical) : c.toJson.Distinct := by
  cases c with
  | equals s => exact .scalar s
  | isNull => exact .scalar .null
  | compare cs =>
    refine .object ?_ (List.forall_mem_map.mpr fun c _ ↦ .scalar c.operand)
    have hnames : (cs.map Comparison.toMember).map Prod.fst =
        (cs.map Comparison.operator).map Operator.directive := by
      rw [List.map_map, List.map_map]
      rfl
    rw [hnames]
    exact List.Nodup.map Operator.directive_injective h

theorem Entry.distinct_toJson {e : Entry} (h : ∀ c ∈ e.conditions, c.Canonical) :
    e.toJson.Distinct := by
  cases e with
  | field c => exact Condition.distinct_toJson (h _ (List.mem_singleton_self _))
  | anyOf cs =>
    refine .array (List.forall_mem_map.mpr fun c hc ↦ .singleton ?_)
    exact Condition.distinct_toJson (h _ (List.mem_map_of_mem hc))

theorem Pagination.distinct_of_mem_toMembers {p : Pagination}
    (h : (p.sort.map SortTerm.field).Nodup) {member : String × Json}
    (hmember : member ∈ p.toMembers) : member.2.Distinct := by
  have hterms : (Json.object (p.sort.map SortTerm.toMember)).Distinct := by
    refine .object ?_ (List.forall_mem_map.mpr fun t _ ↦ ?_)
    · have hnames : (p.sort.map SortTerm.toMember).map Prod.fst =
          (p.sort.map SortTerm.field).map Identifier.text := by
        rw [List.map_map, List.map_map]
        rfl
      rw [hnames]
      exact h.map Identifier.text_injective
    · obtain ⟨field, direction⟩ := t
      cases direction <;> exact .scalar _
  rcases List.mem_append.mp hmember with hbound | hsort
  · rcases List.mem_append.mp hbound with hlimit | hskip
    · obtain ⟨s, -, rfl⟩ := Option.map_eq_some_iff.mp (Option.mem_toList.mp hlimit)
      exact .scalar s
    · obtain ⟨s, -, rfl⟩ := Option.map_eq_some_iff.mp (Option.mem_toList.mp hskip)
      exact .scalar s
  · rw [List.mem_singleton.mp hsort]
    exact hterms

theorem Filter.distinct_toJson {f : Filter} (h : f.Canonical) : f.toJson.Distinct := by
  have hnames : (f.entries.map Entry.toMember).map Prod.fst = f.entries.map Entry.name := by
    rw [List.map_map]
    rfl
  refine .object ?_ fun m hm ↦ ?_
  · rw [List.map_append, hnames, List.nodup_append]
    refine ⟨Entry.nodup_names_iff.mpr ⟨h.fields_nodup, h.groups_le_one⟩,
      f.pagination.nodup_names_toMembers, ?_⟩
    intro name hname other hother heq
    obtain ⟨e, -, rfl⟩ := List.mem_map.mp hname
    obtain ⟨m, hm, rfl⟩ := List.mem_map.mp hother
    exact e.ofKey_name_ne (heq ▸ Pagination.ofKey_of_mem_toMembers hm)
  · rcases List.mem_append.mp hm with hentry | hpage
    · obtain ⟨e, he, rfl⟩ := List.mem_map.mp hentry
      exact Entry.distinct_toJson (h.conditions e he)
    · exact Pagination.distinct_of_mem_toMembers h.sort_nodup hpage

/-! ### The image of reading -/

/-- Every filter that is read from a document without repeated names is canonical, and every
canonical filter is read back from such a document, the one that it is written as. -/
theorem Filter.canonical_of_ofJson_and_ofJson_toJson (f : Filter) :
    (∀ document : Json, document.Distinct → Filter.ofJson document = .ok f → f.Canonical) ∧
      (f.Canonical → f.toJson.Distinct ∧ Filter.ofJson f.toJson = .ok f) :=
  ⟨fun _ hdocument h ↦ Filter.canonical_of_ofJson hdocument h,
    fun h ↦ ⟨Filter.distinct_toJson h, Filter.ofJson_toJson h⟩⟩

theorem Filter.ofJson_toJson_with_nulls_and_group :
    let a : Identifier := ⟨"a", by decide⟩
    let f : Filter :=
      ⟨[.field ⟨a, .compare [⟨.gt, .null⟩, ⟨.ne, .int 1⟩]⟩,
          .anyOf [⟨a, .isNull⟩, ⟨a, .compare []⟩, ⟨a, .equals (.string "")⟩]],
        ⟨some .null, none, [⟨a, .desc⟩]⟩⟩
    f.Canonical ∧ f.toJson.Distinct ∧ Filter.ofJson f.toJson = .ok f := by
  intro a f
  have hcanonical : f.Canonical := ⟨by decide, by decide, by decide, by decide⟩
  obtain ⟨himage, hwritten⟩ := Filter.canonical_of_ofJson_and_ofJson_toJson f
  obtain ⟨hdistinct, hread⟩ := hwritten hcanonical
  exact ⟨himage _ hdistinct hread, hdistinct, hread⟩

end RowFilter
