import RowFilter.Filter.Stored
import RowFilter.Proofs.Filter.Reading

/-!
The field names that a document holds, found by looking at the document alone: in a filter document
the names of conditions, of alternatives and of sort terms, and in a stored filter the names under
`field` in the same three places. A filter has no other fields than its document names, whichever of
the two ways it was read (`text_mem_fieldNames_of_ofJson`, `text_mem_storedNames_of_restore?`).
-/

set_option autoImplicit false

namespace RowFilter

/-! ### Fields of a filter -/

def Entry.fields : Entry → List Identifier
  | .field c => [c.field]
  | .anyOf cs => cs.map FieldCondition.field

/-- The fields of all conditions, then those of the order. -/
def Filter.fields (f : Filter) : List Identifier :=
  f.entries.flatMap Entry.fields ++ f.pagination.sort.map SortTerm.field

/-! ### Names in a filter document -/

namespace Json

def memberNames : Json → List String
  | .object members => members.map Prod.fst
  | _ => []

/-- The field names that one member of a filter document holds. -/
def namesOfMember (member : String × Json) : List String :=
  match MemberKind.ofKey member.1, member.2 with
  | .field, _ => [member.1]
  | .disjunction, .array items => items.flatMap memberNames
  | .disjunction, _ => []
  | .pagination, value => if member.1 = MemberKind.sortKey then value.memberNames else []

/-- The field names of a filter document. -/
def fieldNames : Json → List String
  | .object members => members.flatMap namesOfMember
  | _ => []

end Json

theorem FieldCondition.text_mem_of_ofAlternatives {items : List Json} {cs : List FieldCondition}
    (h : FieldCondition.ofAlternatives 0 items = .ok cs) {i : Identifier}
    (hi : i ∈ cs.map FieldCondition.field) : i.text ∈ items.flatMap Json.memberNames := by
  obtain ⟨c, hc, rfl⟩ := List.mem_map.mp hi
  obtain ⟨item, hitem, member, rfl, hmember⟩ :=
    exists_mem_of_forall₂ (FieldCondition.forall₂_of_ofAlternatives h) hc
  refine List.mem_flatMap.mpr ⟨_, hitem, ?_⟩
  rw [(FieldCondition.eq_of_ofMember hmember).1]
  exact List.mem_singleton_self member.1

theorem Entry.text_mem_of_ofMember {member : String × Json} {e : Entry}
    (h : Entry.ofMember member = .ok (some e)) {i : Identifier} (hi : i ∈ e.fields) :
    i.text ∈ Json.namesOfMember member := by
  obtain ⟨key, value⟩ := member
  rcases Entry.cases_of_ofMember h with ⟨hkind, items, cs, rfl, hcs, rfl⟩ | ⟨hkind, c, hc, rfl⟩
  · dsimp only at hkind
    simp only [Json.namesOfMember, hkind]
    exact FieldCondition.text_mem_of_ofAlternatives hcs hi
  · dsimp only at hkind
    obtain rfl := List.mem_singleton.mp hi
    rw [(FieldCondition.eq_of_ofMember hc).1]
    simp only [Json.namesOfMember, hkind, List.mem_singleton]

theorem SortTerm.text_mem_of_ofJson {value : Json} {ts : List SortTerm}
    (h : SortTerm.ofJson value = .ok ts) {i : Identifier} (hi : i ∈ ts.map SortTerm.field) :
    i.text ∈ value.memberNames := by
  rcases SortTerm.cases_of_ofJson h with ⟨-, rfl⟩ | ⟨members, rfl, hterms⟩
  · cases hi
  · obtain ⟨t, ht, rfl⟩ := List.mem_map.mp hi
    obtain ⟨member, hmember, ht⟩ := exists_mem_of_forall₂ hterms ht
    rw [(SortTerm.eq_of_ofMember ht).1]
    exact List.mem_map_of_mem hmember

/-- A filter read from a document has only fields that the document names. -/
theorem Filter.text_mem_fieldNames_of_ofJson {document : Json} {f : Filter}
    (h : Filter.ofJson document = .ok f) {i : Identifier} (hi : i ∈ f.fields) :
    i.text ∈ document.fieldNames := by
  obtain ⟨members, entries, rfl, -, -, hpagination⟩ := Filter.eq_of_ofJson h
  rcases List.mem_append.mp hi with hi | hi
  · obtain ⟨e, he, hi⟩ := List.mem_flatMap.mp hi
    obtain ⟨member, hmember, hentry⟩ := Filter.exists_member_of_mem_entries h he
    exact List.mem_flatMap.mpr ⟨member, hmember, Entry.text_mem_of_ofMember hentry hi⟩
  · rcases Pagination.sort_of_ofMembers hpagination with hnone | ⟨value, hvalue, hsort⟩
    · rw [hnone] at hi
      cases hi
    · refine List.mem_flatMap.mpr ⟨_, Assoc.mem_of_get?_eq_some hvalue, ?_⟩
      exact SortTerm.text_mem_of_ofJson hsort hi

/-! ### Names in a stored filter -/

namespace Json

/-- The name under `field` in a record with the given parts. -/
def storedName (parts : List String) (record : Json) : List String :=
  match record.part? parts "field" with
  | some (.string s) => [s]
  | _ => []

def storedNamesOfEntry : Json → List String
  | .object [("field", record)] => storedName ["field", "condition"] record
  | .object [("or", .array items)] => items.flatMap (storedName ["field", "condition"])
  | _ => []

/-- The items of an array, and none of anything else. -/
def itemsOrNone (value? : Option Json) : List Json := (value?.bind items?).getD []

/-- The field names of a stored filter. -/
def storedNames (document : Json) : List String :=
  let parts := ["entries", "pagination"]
  let pagination? := document.part? parts "pagination"
  (itemsOrNone (document.part? parts "entries")).flatMap storedNamesOfEntry ++
    (itemsOrNone (pagination?.bind (part? ["limit", "skip", "sort"] "sort"))).flatMap
      (storedName ["field", "direction"])

end Json

theorem Identifier.eq_of_restore? {j : Json} {i : Identifier} (h : Identifier.restore? j = some i) :
    j = .string i.text := by
  unfold Identifier.restore? at h
  split at h
  · rw [Identifier.ofString?_eq_some_iff.mp h]
  · cases h

theorem FieldCondition.storedName_of_restore? {j : Json} {c : FieldCondition}
    (h : FieldCondition.restore? j = some c) :
    Json.storedName ["field", "condition"] j = [c.field.text] := by
  obtain ⟨part, hpart, h⟩ := Option.bind_eq_some_iff.mp h
  obtain ⟨field, hfield, h⟩ := Option.bind_eq_some_iff.mp h
  obtain ⟨condition?, -, h⟩ := Option.bind_eq_some_iff.mp h
  obtain ⟨condition, -, h⟩ := Option.bind_eq_some_iff.mp h
  cases h
  simp only [Json.storedName, hpart, Identifier.eq_of_restore? hfield]

theorem SortTerm.storedName_of_restore? {j : Json} {t : SortTerm}
    (h : SortTerm.restore? j = some t) :
    Json.storedName ["field", "direction"] j = [t.field.text] := by
  obtain ⟨part, hpart, h⟩ := Option.bind_eq_some_iff.mp h
  obtain ⟨field, hfield, h⟩ := Option.bind_eq_some_iff.mp h
  obtain ⟨direction?, -, h⟩ := Option.bind_eq_some_iff.mp h
  obtain ⟨direction, -, h⟩ := Option.bind_eq_some_iff.mp h
  cases h
  simp only [Json.storedName, hpart, Identifier.eq_of_restore? hfield]

theorem Entry.text_mem_of_restore? {j : Json} {e : Entry} (h : Entry.restore? j = some e)
    {i : Identifier} (hi : i ∈ e.fields) : i.text ∈ Json.storedNamesOfEntry j := by
  unfold Entry.restore? at h
  split at h
  · obtain ⟨c, hc, rfl⟩ := Option.map_eq_some_iff.mp h
    obtain rfl := List.mem_singleton.mp hi
    simp only [Json.storedNamesOfEntry, FieldCondition.storedName_of_restore? hc,
      List.mem_singleton]
  · obtain ⟨cs, hcs, rfl⟩ := Option.map_eq_some_iff.mp h
    obtain ⟨c, hc, rfl⟩ := List.mem_map.mp hi
    obtain ⟨item, hitem, hrestored⟩ := exists_mem_of_forall₂ (forall₂_of_mapM_eq_some hcs) hc
    refine List.mem_flatMap.mpr ⟨item, hitem, ?_⟩
    rw [FieldCondition.storedName_of_restore? hrestored]
    exact List.mem_singleton_self _
  · cases h

/-- A restored filter has only fields that the stored document names. -/
theorem Filter.text_mem_storedNames_of_restore? {document : Json} {f : Filter}
    (h : Filter.restore? document = some f) {i : Identifier} (hi : i ∈ f.fields) :
    i.text ∈ document.storedNames := by
  obtain ⟨entriesPart, hentriesPart, h⟩ := Option.bind_eq_some_iff.mp h
  obtain ⟨items, hitems, h⟩ := Option.bind_eq_some_iff.mp h
  obtain ⟨entries, hentries, h⟩ := Option.bind_eq_some_iff.mp h
  obtain ⟨pagePart, hpagePart, h⟩ := Option.bind_eq_some_iff.mp h
  obtain ⟨pagination, hpagination, h⟩ := Option.bind_eq_some_iff.mp h
  cases h
  obtain ⟨limit, -, hpagination⟩ := Option.bind_eq_some_iff.mp hpagination
  obtain ⟨skip, -, hpagination⟩ := Option.bind_eq_some_iff.mp hpagination
  obtain ⟨sortPart, hsortPart, hpagination⟩ := Option.bind_eq_some_iff.mp hpagination
  obtain ⟨terms, hterms, hpagination⟩ := Option.bind_eq_some_iff.mp hpagination
  obtain ⟨sort, hsort, hpagination⟩ := Option.bind_eq_some_iff.mp hpagination
  cases hpagination
  rcases List.mem_append.mp hi with hi | hi
  · obtain ⟨e, he, hi⟩ := List.mem_flatMap.mp hi
    obtain ⟨item, hitem, hentry⟩ := exists_mem_of_forall₂ (forall₂_of_mapM_eq_some hentries) he
    have hitems' :
        Json.itemsOrNone (document.part? ["entries", "pagination"] "entries") = items := by
      simp only [Json.itemsOrNone, hentriesPart, Option.bind_some, hitems, Option.getD_some]
    refine List.mem_append_left _ (List.mem_flatMap.mpr ⟨item, ?_, ?_⟩)
    · rwa [hitems']
    · exact Entry.text_mem_of_restore? hentry hi
  · obtain ⟨t, ht, rfl⟩ := List.mem_map.mp hi
    obtain ⟨item, hitem, hterm⟩ := exists_mem_of_forall₂ (forall₂_of_mapM_eq_some hsort) ht
    have hterms' : Json.itemsOrNone ((document.part? ["entries", "pagination"] "pagination").bind
        (Json.part? ["limit", "skip", "sort"] "sort")) = terms := by
      simp only [Json.itemsOrNone, hpagePart, Option.bind_some, hsortPart, hterms,
        Option.getD_some]
    refine List.mem_append_right _ (List.mem_flatMap.mpr ⟨item, ?_, ?_⟩)
    · rwa [hterms']
    · rw [SortTerm.storedName_of_restore? hterm]
      exact List.mem_singleton_self _

end RowFilter
