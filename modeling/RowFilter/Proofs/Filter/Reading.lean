import RowFilter.Filter.OfJson
import RowFilter.Json.Record
import Mathlib.Data.List.Forall2

/-!
What can be said of a document that was read as a filter. Each function that reads a part has one
lemma that lists what the part must have been, so that a property of filters is traced back to the
document without opening the readers again.
-/

set_option autoImplicit false

namespace RowFilter

/-! ### Results that are not errors -/

section Results

variable {ε α β : Type}

theorem bind_eq_ok {x : Except ε α} {f : α → Except ε β} {b : β} :
    (x >>= f) = .ok b ↔ ∃ a, x = .ok a ∧ f a = .ok b := by
  cases x with
  | error e =>
    constructor
    · intro h
      cases h
    · rintro ⟨a, h, -⟩
      cases h
  | ok a =>
    constructor
    · intro h
      exact ⟨a, rfl, h⟩
    · rintro ⟨a', h, hf⟩
      cases h
      exact hf

theorem map_eq_ok {x : Except ε α} {f : α → β} {b : β} :
    x.map f = .ok b ↔ ∃ a, x = .ok a ∧ f a = b := by
  cases x with
  | error e =>
    constructor
    · intro h
      cases h
    · rintro ⟨a, h, -⟩
      cases h
  | ok a =>
    constructor
    · intro h
      exact ⟨a, rfl, Except.ok.inj h⟩
    · rintro ⟨a', h, hf⟩
      cases h
      exact congrArg Except.ok hf

theorem exists_mapM_eq_ok {f : α → Except ε β} {as : List α}
    (h : ∀ a ∈ as, ∃ b, f a = .ok b) : ∃ bs, as.mapM f = .ok bs := by
  induction as with
  | nil => exact ⟨[], rfl⟩
  | cons a rest ih =>
    obtain ⟨⟨b, hb⟩, hrest⟩ := List.forall_mem_cons.mp h
    obtain ⟨bs, hbs⟩ := ih hrest
    exact ⟨b :: bs, by rw [List.mapM_cons, hb, hbs]; rfl⟩

theorem forall₂_of_mapM_eq_ok {f : α → Except ε β} {as : List α} {bs : List β}
    (h : as.mapM f = .ok bs) : List.Forall₂ (fun a b ↦ f a = .ok b) as bs := by
  induction as generalizing bs with
  | nil =>
    cases h
    exact .nil
  | cons a rest ih =>
    rw [List.mapM_cons] at h
    obtain ⟨b, hb, h⟩ := bind_eq_ok.mp h
    obtain ⟨rest', hrest, h⟩ := bind_eq_ok.mp h
    cases h
    exact .cons hb (ih hrest)

theorem mapM_eq_ok_map {f : α → Except ε β} {g : α → β} {as : List α}
    (h : ∀ a ∈ as, f a = .ok (g a)) : as.mapM f = .ok (as.map g) := by
  induction as with
  | nil => rfl
  | cons a rest ih =>
    obtain ⟨ha, hrest⟩ := List.forall_mem_cons.mp h
    rw [List.mapM_cons, ha, ih hrest]
    rfl

/-- A list written item by item is read back item by item. -/
theorem mapM_map_eq_ok {write : α → β} {read : β → Except ε α} {as : List α}
    (h : ∀ a ∈ as, read (write a) = .ok a) : (as.map write).mapM read = .ok as := by
  rw [List.mapM_map]
  exact (mapM_eq_ok_map (g := id) h).trans (by rw [List.map_id])

theorem forall₂_of_mapM_eq_some {f : α → Option β} {as : List α} {bs : List β}
    (h : as.mapM f = some bs) : List.Forall₂ (fun a b ↦ f a = some b) as bs := by
  induction as generalizing bs with
  | nil =>
    cases h
    exact .nil
  | cons a rest ih =>
    rw [List.mapM_cons] at h
    obtain ⟨b, hb, h⟩ := Option.bind_eq_some_iff.mp h
    obtain ⟨rest', hrest, h⟩ := Option.bind_eq_some_iff.mp h
    cases h
    exact .cons hb (ih hrest)

/-- Where each item is read exactly from how it is written, so is a list, item by item. -/
theorem mapM_eq_some_iff {read : α → Option β} {write : β → α}
    (h : ∀ a b, read a = some b ↔ a = write b) {as : List α} {bs : List β} :
    as.mapM read = some bs ↔ as = bs.map write := by
  constructor
  · intro hread
    rw [← List.forall₂_eq_eq_eq, List.forall₂_map_right_iff]
    exact (forall₂_of_mapM_eq_some hread).imp fun a b ↦ (h a b).mp
  · rintro rfl
    exact Json.mapM_map_eq_some (fun b ↦ (h _ b).mpr rfl) bs

/-- Every item of the second list comes from one of the first. -/
theorem exists_mem_of_forall₂ {r : α → β → Prop} {as : List α} {bs : List β}
    (h : List.Forall₂ r as bs) {b : β} (hb : b ∈ bs) : ∃ a ∈ as, r a b := by
  induction h with
  | nil => cases hb
  | cons hr _ ih =>
    rcases List.mem_cons.mp hb with rfl | hb
    · exact ⟨_, List.mem_cons_self, hr⟩
    · obtain ⟨a, ha, hr⟩ := ih hb
      exact ⟨a, List.mem_cons_of_mem _ ha, hr⟩

theorem exists_of_mem_of_mapM_eq_ok {f : α → Except ε β} {as : List α} {bs : List β}
    (h : as.mapM f = .ok bs) {a : α} (ha : a ∈ as) : ∃ b, f a = .ok b := by
  obtain ⟨b, -, hb⟩ := exists_mem_of_forall₂ (forall₂_of_mapM_eq_ok h).flip ha
  exact ⟨b, hb⟩

end Results

/-! ### Conditions and alternatives -/

theorem Identifier.exists_ofString? {name : String} (h : isIdentifier name = true) :
    ∃ field, Identifier.ofString? name = some field :=
  ⟨⟨name, h⟩, Identifier.ofString?_eq_some_iff.mpr rfl⟩

theorem Operator.directive_of_ofDirective? {text : String} {op : Operator}
    (h : Operator.ofDirective? text = some op) : op.directive = text := by
  simpa using List.find?_some h

theorem Identifier.text_of_ofFieldName {name : String} {field : Identifier}
    (h : Identifier.ofFieldName name = .ok field) : field.text = name := by
  unfold Identifier.ofFieldName at h
  split at h
  · rename_i i hi
    cases h
    exact Identifier.ofString?_eq_some_iff.mp hi
  · cases h

theorem FieldCondition.eq_of_ofMember {member : String × Json} {c : FieldCondition}
    (h : FieldCondition.ofMember member = .ok c) :
    c.field.text = member.1 ∧ Condition.ofJson c.field member.2 = .ok c.condition := by
  obtain ⟨field, hfield, h⟩ := bind_eq_ok.mp h
  obtain ⟨condition, hcondition, h⟩ := bind_eq_ok.mp h
  cases h
  exact ⟨Identifier.text_of_ofFieldName hfield, hcondition⟩

theorem Comparison.exists_ofMember_iff {field : Identifier} {member : String × Json} :
    (∃ c, Comparison.ofMember field member = .ok c) ↔
      (Operator.ofDirective? member.1).isSome ∧ ∃ s, member.2 = .scalar s := by
  obtain ⟨directive, value⟩ := member
  cases hoperator : Operator.ofDirective? directive with
  | none => simp [Comparison.ofMember, hoperator]
  | some operator => cases value <;> simp [Comparison.ofMember, hoperator]

/-- An object is a condition on a name exactly when the name is an identifier, and every member
compares a scalar. -/
theorem FieldCondition.exists_ofMember_object_iff {name : String} {members : List (String × Json)} :
    (∃ c, FieldCondition.ofMember (name, .object members) = .ok c) ↔
      isIdentifier name = true ∧
        ∀ m ∈ members, (Operator.ofDirective? m.1).isSome ∧ ∃ s, m.2 = .scalar s := by
  constructor
  · rintro ⟨c, h⟩
    obtain ⟨hname, hcondition⟩ := FieldCondition.eq_of_ofMember h
    obtain ⟨comparisons, hcomparisons, -⟩ := map_eq_ok.mp hcondition
    dsimp only at hname
    refine ⟨hname ▸ c.field.valid, fun m hm ↦ ?_⟩
    exact Comparison.exists_ofMember_iff.mp (exists_of_mem_of_mapM_eq_ok hcomparisons hm)
  · rintro ⟨hname, hmembers⟩
    obtain ⟨field, hfield⟩ := Identifier.exists_ofString? hname
    obtain ⟨comparisons, hcomparisons⟩ := exists_mapM_eq_ok fun m hm ↦
      Comparison.exists_ofMember_iff.mpr (hmembers m hm)
    refine ⟨⟨field, .compare comparisons⟩, ?_⟩
    rw [FieldCondition.ofMember, Identifier.ofFieldName, hfield]
    exact bind_eq_ok.mpr ⟨field, rfl, bind_eq_ok.mpr
      ⟨_, map_eq_ok.mpr ⟨comparisons, hcomparisons, rfl⟩, rfl⟩⟩

theorem FieldCondition.eq_of_ofAlternative {index : Nat} {item : Json} {c : FieldCondition}
    (h : FieldCondition.ofAlternative index item = .ok c) :
    ∃ member, item = .object [member] ∧ FieldCondition.ofMember member = .ok c := by
  unfold FieldCondition.ofAlternative at h
  split at h
  · exact ⟨_, rfl, h⟩
  · cases h

theorem FieldCondition.forall₂_of_ofAlternatives {index : Nat} {items : List Json}
    {cs : List FieldCondition} (h : FieldCondition.ofAlternatives index items = .ok cs) :
    List.Forall₂ (fun item c ↦ ∃ member, item = .object [member] ∧
      FieldCondition.ofMember member = .ok c) items cs := by
  induction items generalizing index cs with
  | nil =>
    cases h
    exact .nil
  | cons item rest ih =>
    obtain ⟨c, hc, h⟩ := bind_eq_ok.mp h
    obtain ⟨rest', hrest, h⟩ := bind_eq_ok.mp h
    cases h
    exact .cons (eq_of_ofAlternative hc) (ih hrest)

theorem FieldCondition.eq_of_ofDisjunction {value : Json} {cs : List FieldCondition}
    (h : FieldCondition.ofDisjunction value = .ok (some cs)) :
    ∃ items, value = .array items ∧ FieldCondition.ofAlternatives 0 items = .ok cs := by
  unfold FieldCondition.ofDisjunction at h
  split at h
  · cases h
  · obtain ⟨cs', hcs, hsome⟩ := map_eq_ok.mp h
    cases hsome
    exact ⟨_, rfl, hcs⟩
  · cases h

/-! ### Entries -/

theorem MemberKind.eq_of_ofKey_pagination {key : String}
    (h : MemberKind.ofKey key = .pagination) :
    key = MemberKind.limitKey ∨ key = MemberKind.skipKey ∨ key = MemberKind.sortKey := by
  unfold MemberKind.ofKey at h
  split at h
  · assumption
  · split at h <;> cases h

theorem MemberKind.eq_of_ofKey_disjunction {key : String}
    (h : MemberKind.ofKey key = .disjunction) : key = MemberKind.disjunctionKey := by
  unfold MemberKind.ofKey at h
  split at h
  · cases h
  · split at h
    · assumption
    · cases h

theorem MemberKind.ofKey_of_isIdentifier {key : String} (h : isIdentifier key = true) :
    MemberKind.ofKey key = .field := by
  have hne (reserved : String) (hreserved : isIdentifier reserved = false) : key ≠ reserved := by
    rintro rfl
    rw [hreserved] at h
    cases h
  rw [MemberKind.ofKey, if_neg, if_neg]
  · exact hne _ (by decide)
  · rintro (hkey | hkey | hkey)
    · exact hne _ (by decide) hkey
    · exact hne _ (by decide) hkey
    · exact hne _ (by decide) hkey

/-- A member that contributes an entry is a disjunction with its alternatives or a field with its
condition. -/
theorem Entry.cases_of_ofMember {member : String × Json} {e : Entry}
    (h : Entry.ofMember member = .ok (some e)) :
    (MemberKind.ofKey member.1 = .disjunction ∧ ∃ items cs, member.2 = .array items ∧
        FieldCondition.ofAlternatives 0 items = .ok cs ∧ e = .anyOf cs) ∨
      (MemberKind.ofKey member.1 = .field ∧ ∃ c, FieldCondition.ofMember member = .ok c ∧
        e = .field c) := by
  unfold Entry.ofMember at h
  split at h
  · cases h
  · rename_i hkind
    obtain ⟨group, hgroup, hentry⟩ := map_eq_ok.mp h
    obtain ⟨cs, rfl, rfl⟩ := Option.map_eq_some_iff.mp hentry
    obtain ⟨items, hitems, hcs⟩ := FieldCondition.eq_of_ofDisjunction hgroup
    exact Or.inl ⟨hkind, items, cs, hitems, hcs, rfl⟩
  · rename_i hkind
    obtain ⟨c, hc, hentry⟩ := map_eq_ok.mp h
    cases hentry
    exact Or.inr ⟨hkind, c, hc, rfl⟩

/-! ### The order of rows and the page -/

theorem SortTerm.eq_of_ofMember {member : String × Json} {t : SortTerm}
    (h : SortTerm.ofMember member = .ok t) :
    t.field.text = member.1 ∧ t.direction = Direction.ofJson member.2 := by
  unfold SortTerm.ofMember at h
  split at h
  · rename_i field hfield
    cases h
    exact ⟨Identifier.ofString?_eq_some_iff.mp hfield, rfl⟩
  · cases h

theorem SortTerm.cases_of_ofJson {value : Json} {ts : List SortTerm}
    (h : SortTerm.ofJson value = .ok ts) :
    (value = .null ∧ ts = []) ∨ ∃ members, value = .object members ∧
      List.Forall₂ (fun member t ↦ SortTerm.ofMember member = .ok t) members ts := by
  unfold SortTerm.ofJson at h
  split at h
  · cases h
    exact Or.inl ⟨rfl, rfl⟩
  · exact Or.inr ⟨_, rfl, forall₂_of_mapM_eq_ok h⟩
  · cases h

/-- The members of an object are an order exactly when their names are identifiers. -/
theorem SortTerm.exists_ofJson_object_iff {members : List (String × Json)} :
    (∃ ts, SortTerm.ofJson (.object members) = .ok ts) ↔
      ∀ m ∈ members, isIdentifier m.1 = true := by
  constructor
  · rintro ⟨ts, h⟩ m hm
    obtain ⟨t, ht⟩ := exists_of_mem_of_mapM_eq_ok h hm
    rw [← (SortTerm.eq_of_ofMember ht).1]
    exact t.field.valid
  · intro h
    refine exists_mapM_eq_ok fun m hm ↦ ?_
    obtain ⟨field, hfield⟩ := Identifier.exists_ofString? (h m hm)
    exact ⟨⟨field, Direction.ofJson m.2⟩, by rw [SortTerm.ofMember, hfield]⟩

/-- The terms of the order come from the sort directive, if it is there. -/
theorem Pagination.sort_of_ofMembers {members : List (String × Json)} {p : Pagination}
    (h : Pagination.ofMembers members = .ok p) :
    p.sort = [] ∨ ∃ value, Assoc.get? MemberKind.sortKey members = some value ∧
      SortTerm.ofJson value = .ok p.sort := by
  obtain ⟨limit, -, h⟩ := bind_eq_ok.mp h
  obtain ⟨skip, -, h⟩ := bind_eq_ok.mp h
  dsimp only at h
  split at h
  · obtain ⟨sort, hsort, h⟩ := bind_eq_ok.mp h
    cases hsort
    cases h
    exact Or.inl rfl
  · rename_i value hvalue
    obtain ⟨sort, hsort, h⟩ := bind_eq_ok.mp h
    cases h
    exact Or.inr ⟨value, hvalue, hsort⟩

theorem Pagination.exists_ofJson_of_ofMembers {members : List (String × Json)} {p : Pagination}
    (h : Pagination.ofMembers members = .ok p) {value : Json}
    (hvalue : Assoc.get? MemberKind.sortKey members = some value) :
    ∃ ts, SortTerm.ofJson value = .ok ts := by
  obtain ⟨limit, -, h⟩ := bind_eq_ok.mp h
  obtain ⟨skip, -, h⟩ := bind_eq_ok.mp h
  simp only [hvalue] at h
  obtain ⟨ts, hts, -⟩ := bind_eq_ok.mp h
  exact ⟨ts, hts⟩

/-- A bound is a scalar where it is there. -/
theorem Pagination.exists_scalar_of_bound {key : String} {members : List (String × Json)}
    {bound : Option Scalar} (h : Pagination.bound key members = .ok bound) {value : Json}
    (hvalue : Assoc.get? key members = some value) : ∃ s, value = .scalar s := by
  rw [Pagination.bound, hvalue] at h
  cases value with
  | scalar s => exact ⟨s, rfl⟩
  | array _ => cases h
  | object _ => cases h

theorem Pagination.bounds_of_ofMembers {members : List (String × Json)} {p : Pagination}
    (h : Pagination.ofMembers members = .ok p) :
    Pagination.bound MemberKind.limitKey members = .ok p.limit ∧
      Pagination.bound MemberKind.skipKey members = .ok p.skip := by
  obtain ⟨limit, hlimit, h⟩ := bind_eq_ok.mp h
  obtain ⟨skip, hskip, h⟩ := bind_eq_ok.mp h
  dsimp only at h
  split at h
  all_goals
    obtain ⟨sort, -, h⟩ := bind_eq_ok.mp h
    cases h
    exact ⟨hlimit, hskip⟩

theorem Pagination.exists_ofMembers {members : List (String × Json)} {limit skip : Option Scalar}
    (hlimit : Pagination.bound MemberKind.limitKey members = .ok limit)
    (hskip : Pagination.bound MemberKind.skipKey members = .ok skip)
    (hsort : ∀ value, Assoc.get? MemberKind.sortKey members = some value →
      ∃ ts, SortTerm.ofJson value = .ok ts) : ∃ p, Pagination.ofMembers members = .ok p := by
  unfold Pagination.ofMembers
  rw [hlimit, hskip]
  cases hvalue : Assoc.get? MemberKind.sortKey members with
  | none => exact ⟨⟨limit, skip, []⟩, rfl⟩
  | some value =>
    obtain ⟨ts, hts⟩ := hsort value hvalue
    exact ⟨⟨limit, skip, ts⟩, by simp only [hts]; rfl⟩

/-! ### Filters -/

theorem Filter.eq_of_ofJson {document : Json} {f : Filter} (h : Filter.ofJson document = .ok f) :
    ∃ members entries, document = .object members ∧ members.mapM Entry.ofMember = .ok entries ∧
      f.entries = entries.filterMap id ∧ Pagination.ofMembers members = .ok f.pagination := by
  unfold Filter.ofJson at h
  split at h
  · obtain ⟨entries, hentries, h⟩ := bind_eq_ok.mp h
    obtain ⟨pagination, hpagination, h⟩ := bind_eq_ok.mp h
    cases h
    exact ⟨_, entries, rfl, hentries, rfl, hpagination⟩
  · cases h

theorem Filter.exists_ofJson {members : List (String × Json)}
    (hentries : ∀ m ∈ members, ∃ e, Entry.ofMember m = .ok e)
    (hpage : ∃ p, Pagination.ofMembers members = .ok p) :
    ∃ f, Filter.ofJson (.object members) = .ok f := by
  obtain ⟨entries, hentries⟩ := exists_mapM_eq_ok hentries
  obtain ⟨page, hpage⟩ := hpage
  exact ⟨⟨entries.filterMap id, page⟩,
    bind_eq_ok.mpr ⟨entries, hentries, bind_eq_ok.mpr ⟨page, hpage, rfl⟩⟩⟩

/-- Every entry of a filter comes from a member of its document. -/
theorem Filter.exists_member_of_mem_entries {members : List (String × Json)} {f : Filter}
    (h : Filter.ofJson (.object members) = .ok f) {e : Entry} (he : e ∈ f.entries) :
    ∃ member ∈ members, Entry.ofMember member = .ok (some e) := by
  obtain ⟨_, entries, hdocument, hentries, hfilter, -⟩ := Filter.eq_of_ofJson h
  cases hdocument
  rw [hfilter] at he
  obtain ⟨_, hmem, rfl⟩ := List.mem_filterMap.mp he
  exact exists_mem_of_forall₂ (forall₂_of_mapM_eq_ok hentries) hmem

end RowFilter
