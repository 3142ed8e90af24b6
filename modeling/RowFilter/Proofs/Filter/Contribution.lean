import RowFilter.Compile
import RowFilter.Proofs.Filter.Reading
import RowFilter.Proofs.QueryString.WellFormed
import RowFilter.Proofs.Sql.ReadBack

/-!
No condition of a query string is dropped on the way to the text. The reader of filters accepts a
comparison object without members and a group without alternatives, and neither leaves anything in
the text; but a query string is never decoded to an empty container below the root. So every member
that asks for something, and every alternative of a group, has a predicate of its own in the text
(`contributes_of_compileQueryString`).
-/

set_option autoImplicit false

namespace RowFilter

open Sql

/-! ### What members are to contribute -/

/-- Whether a member asks for a condition on rows: it is no directive for the page or the order, and
no group that is null. -/
def Json.isCondition (member : String × Json) : Bool :=
  match MemberKind.ofKey member.1 with
  | .pagination => false
  | .disjunction => !member.2.isNull
  | .field => true

/-- At least one term, and all of them on the column of one field. -/
structure Sql.OnField (column : Identifier → Column) (name : String) (terms : List (Term Scalar)) :
    Prop where
  ne_nil : terms ≠ []
  column_eq : ∃ field : Identifier, field.text = name ∧ ∀ t ∈ terms, t.column = column field

/-- What a member contributes to the condition: a field its own terms, and a group one conjunct that
consists of the terms of its alternatives, of each at least one. -/
inductive Contributes (column : Identifier → Column) :
    String × Json → List (Conjunct Scalar) → Prop
  | field {name : String} {value : Json} {terms : List (Term Scalar)}
      (kind : MemberKind.ofKey name = .field) (onField : OnField column name terms) :
      Contributes column (name, value) (terms.map .single)
  | group {items : List Json} {parts : List (List (Term Scalar))} (ne_nil : parts ≠ [])
      (alternatives : List.Forall₂ (fun item terms ↦ ∃ name value,
        item = .object [(name, value)] ∧ OnField column name terms) items parts) :
      Contributes column (MemberKind.disjunctionKey, .array items) [.group parts.flatten]

/-! ### Conditions of full values -/

theorem Condition.tests_ne_nil {field : Identifier} {value : Json} {c : Condition}
    (hvalue : value.Full) (h : Condition.ofJson field value = .ok c) : c.tests ≠ [] := by
  cases hvalue with
  | scalar s =>
    cases h
    cases s <;> exact List.cons_ne_nil _ _
  | array _ _ => cases h
  | object ne_nil _ _ =>
    obtain ⟨comparisons, hcomparisons, rfl⟩ := map_eq_ok.mp h
    have hlength := (forall₂_of_mapM_eq_ok hcomparisons).length_eq
    intro hnone
    rw [Condition.tests, List.map_eq_nil_iff] at hnone
    rw [hnone, List.length_nil, List.length_eq_zero_iff] at hlength
    exact ne_nil hlength

theorem FieldCondition.onField {column : Identifier → Column} {name : String} {value : Json}
    {c : FieldCondition} (hvalue : value.Full)
    (h : FieldCondition.ofMember (name, value) = .ok c) :
    OnField column name (c.predicates.map (.ofPredicate column)) := by
  obtain ⟨hname, hcondition⟩ := FieldCondition.eq_of_ofMember h
  constructor
  · simpa [FieldCondition.predicates] using Condition.tests_ne_nil hvalue hcondition
  · refine ⟨c.field, hname, fun t ht ↦ ?_⟩
    simp only [FieldCondition.predicates, List.map_map, List.mem_map] at ht
    obtain ⟨test, -, rfl⟩ := ht
    rfl

/-! ### Entries -/

/-- The members that leave an entry are those that ask for a condition. -/
theorem Entry.isSome_eq_of_ofMember {member : String × Json} {e : Option Entry}
    (h : Entry.ofMember member = .ok e) : e.isSome = Json.isCondition member := by
  rw [Entry.ofMember] at h
  rw [Json.isCondition]
  cases hkind : MemberKind.ofKey member.1 with
  | pagination =>
    rw [hkind] at h
    cases h
    rfl
  | disjunction =>
    rw [hkind] at h
    obtain ⟨group, hgroup, rfl⟩ := map_eq_ok.mp h
    unfold FieldCondition.ofDisjunction at hgroup
    split at hgroup
    · rename_i hnull
      cases hgroup
      rw [hnull]
      rfl
    · rename_i items harray
      obtain ⟨cs, -, rfl⟩ := map_eq_ok.mp hgroup
      rw [harray]
      rfl
    · cases hgroup
  | field =>
    rw [hkind] at h
    obtain ⟨c, -, rfl⟩ := map_eq_ok.mp h
    rfl

/-- What an entry leaves in the condition. -/
def Entry.conjuncts (column : Identifier → Column) (e : Entry) : List (Conjunct Scalar) :=
  e.groups column ++ e.singles column

theorem Entry.conjuncts_field (column : Identifier → Column) (c : FieldCondition) :
    (Entry.field c).conjuncts column = (c.predicates.map (.ofPredicate column)).map .single := by
  rw [List.map_map]
  rfl

theorem Entry.conjuncts_anyOf (column : Identifier → Column) {cs : List FieldCondition}
    (hne : cs ≠ []) (h : ∀ c ∈ cs, c.predicates ≠ []) :
    (Entry.anyOf cs).conjuncts column =
      [.group (cs.map fun c ↦ c.predicates.map (.ofPredicate column)).flatten] := by
  have hpredicates : (Entry.anyOf cs).predicates ≠ [] := by
    obtain ⟨c, hc⟩ := List.exists_mem_of_ne_nil cs hne
    intro hnone
    exact h c hc (List.flatMap_eq_nil_iff.mp hnone c hc)
  rw [conjuncts, groups, singles, if_neg hpredicates, List.append_nil, predicates, List.map_flatMap,
    List.flatMap_def]

theorem FieldCondition.forall₂_onField (column : Identifier → Column) {items : List Json}
    {cs : List FieldCondition} (hvalues : ∀ item ∈ items, item.Full)
    (h : FieldCondition.ofAlternatives 0 items = .ok cs) :
    List.Forall₂ (fun item terms ↦ ∃ name value,
        item = .object [(name, value)] ∧ OnField column name terms)
      items (cs.map fun c ↦ c.predicates.map (.ofPredicate column)) := by
  have hread := (List.forall₂_and_left _ _).mpr ⟨hvalues, forall₂_of_ofAlternatives h⟩
  refine List.forall₂_map_right_iff.mpr (hread.imp ?_)
  rintro item c ⟨hfull, ⟨name, value⟩, rfl, hmember⟩
  cases hfull with
  | object _ _ values =>
    exact ⟨name, value, rfl, onField (values _ (List.mem_singleton_self _)) hmember⟩

/-- An entry that was read from a full member leaves what the member is to contribute. -/
theorem Entry.contributes {column : Identifier → Column} {member : String × Json} {e : Entry}
    (hvalue : member.2.Full) (h : Entry.ofMember member = .ok (some e)) :
    Contributes column member (e.conjuncts column) := by
  obtain ⟨key, value⟩ := member
  rcases Entry.cases_of_ofMember h with ⟨hkind, items, cs, hitems, hcs, rfl⟩ | ⟨hkind, c, hc, rfl⟩
  · dsimp only at hkind hitems hvalue
    subst hitems
    cases hvalue with
    | array ne_nil values =>
      have halternatives := FieldCondition.forall₂_onField column values hcs
      have hne : cs ≠ [] := by
        rintro rfl
        exact ne_nil (List.forall₂_nil_right_iff.mp halternatives)
      have hpredicates : ∀ c ∈ cs, c.predicates ≠ [] := by
        intro c hc
        obtain ⟨_, -, _, _, -, honField⟩ :=
          exists_mem_of_forall₂ halternatives (List.mem_map_of_mem hc)
        exact mt List.map_eq_nil_iff.mpr honField.ne_nil
      rw [MemberKind.eq_of_ofKey_disjunction hkind, conjuncts_anyOf column hne hpredicates]
      exact .group (mt List.map_eq_nil_iff.mp hne) halternatives
  · rw [conjuncts_field]
    exact .field hkind (FieldCondition.onField hvalue hc)

theorem Entry.forall₂_contributes (column : Identifier → Column) {members : List (String × Json)}
    {entries : List (Option Entry)}
    (h : List.Forall₂ (fun m e ↦ Entry.ofMember m = .ok e) members entries)
    (hvalues : ∀ m ∈ members, m.2.Full) :
    List.Forall₂ (Contributes column) (members.filter Json.isCondition)
      ((entries.filterMap id).map (Entry.conjuncts column)) := by
  induction h with
  | nil => exact .nil
  | @cons member e _ _ hread _ ih =>
    obtain ⟨hvalue, hrest⟩ := List.forall_mem_cons.mp hvalues
    have hsome := Entry.isSome_eq_of_ofMember hread
    cases e with
    | none =>
      rw [List.filter_cons_of_neg (by simp [← hsome])]
      exact ih hrest
    | some e =>
      rw [List.filter_cons_of_pos (by simp [← hsome])]
      exact .cons (Entry.contributes hvalue hread) (ih hrest)

/-! ### The text -/

theorem Filter.conjuncts_boundTail_perm (f : Filter) (aliases : Option AliasMap) :
    (f.boundTail aliases).conjuncts.Perm
      (f.entries.map (Entry.conjuncts (Column.of aliases))).flatten := by
  rw [← List.flatMap_def]
  exact List.flatMap_append_perm _ _ _

theorem Sql.Tail.where_prefix_iff (t : Tail Nat) :
    "WHERE ".toList <+: t.text ↔ t.conjuncts ≠ [] := by
  rw [text_eq, textOf_where]
  constructor
  · rintro ⟨rest, hrest⟩ hnone
    rw [hnone, writeClause, List.nil_append] at hrest
    cases t.literal?_behindWhere.1.symm.trans (literal?_eq_some_iff.mpr hrest.symm)
  · intro hne
    rw [writeClause_of_ne_nil hne, List.append_assoc, List.append_assoc]
    exact List.prefix_append _ _

theorem Contributes.flatten_eq_nil_iff {column : Identifier → Column}
    {members : List (String × Json)} {blocks : List (List (Conjunct Scalar))}
    (h : List.Forall₂ (Contributes column) members blocks) :
    blocks.flatten = [] ↔ members = [] := by
  cases h with
  | nil => exact iff_of_true rfl rfl
  | @cons member block _ _ hcontributes _ =>
    have hne : block ≠ [] := by
      cases hcontributes with
      | field _ onField => exact mt List.map_eq_nil_iff.mp onField.ne_nil
      | group _ _ => exact List.cons_ne_nil _ _
    rw [List.flatten_cons, List.append_eq_nil_iff]
    exact iff_of_false (fun hnone ↦ hne hnone.1) (List.cons_ne_nil _ _)

/-- The text of a compiled query string is the base and a tail that is read back. Its condition
consists of what the members of the decoded object contribute, with the number of each value in the
place of the value: every member that asks for a condition has a part of its own, and so has every
alternative of a group. There is no condition only where no member asks for one. -/
theorem contributes_of_compileQueryString {base query : String} {aliases : Option AliasMap}
    {q : Query} (h : compileQueryString base query aliases = .ok q) :
    ∃ members blocks tail t,
      QueryString.decode query = .object members ∧
      List.Forall₂ (Contributes (Column.of aliases)) (members.filter Json.isCondition) blocks ∧
      q.sql = Text.trim base ++ gap base ++ tail ∧ Tail.read? tail.toList = some t ∧
      (t.conjuncts.map (Conjunct.map fun n ↦ q.values[n - 1]?)).Perm
        (blocks.flatten.map (Conjunct.map some)) ∧
      ("WHERE ".toList <+: tail.toList ↔ ∃ m ∈ members, Json.isCondition m = true) := by
  obtain ⟨members, hdecode, -, hfull⟩ := QueryString.exists_decode_eq_object query
  unfold compileQueryString compileDocument at h
  split at h
  · rename_i f hf
    cases h
    rw [hdecode] at hf
    obtain ⟨_, entries, hdocument, hentries, hfilter, -⟩ := Filter.eq_of_ofJson hf
    cases hdocument
    have hblocks := Entry.forall₂_contributes (Column.of aliases)
      (forall₂_of_mapM_eq_ok hentries) hfull
    rw [← hfilter] at hblocks
    have hperm := f.conjuncts_boundTail_perm aliases
    have hread : (f.tail aliases).conjuncts.map
          (Conjunct.map fun n ↦ (f.compile base aliases).values[n - 1]?) =
        (f.boundTail aliases).conjuncts.map (Conjunct.map some) :=
      congrArg Tail.conjuncts (f.map_tail base aliases)
    refine ⟨members, _, (f.compile "" aliases).sql, f.tail aliases, hdecode, hblocks,
      f.sql_compile base aliases, ?_, ?_, ?_⟩
    · rw [f.toList_sql_tail]
      exact Tail.read?_text (Tail.filled_ofTemplate _ _)
    · rw [hread]
      exact hperm.map _
    · have hlength : (f.tail aliases).conjuncts.length =
          (f.entries.map (Entry.conjuncts (Column.of aliases))).flatten.length := by
        rw [← hperm.length_eq, ← List.length_map, hread, List.length_map]
      rw [f.toList_sql_tail, Tail.where_prefix_iff, Ne, ← List.length_eq_zero_iff, hlength,
        List.length_eq_zero_iff, Contributes.flatten_eq_nil_iff hblocks, List.filter_eq_nil_iff]
      push Not
      rfl
  · cases h

theorem contributes_of_compileQueryString_group :
    ∃ q, compileQueryString "SELECT 1" "$limit=5&$or[][b]=x" none = .ok q ∧
      ∃ tail, q.sql = Text.trim "SELECT 1" ++ gap "SELECT 1" ++ tail ∧
        "WHERE ".toList <+: tail.toList := by
  have hparameters : QueryString.parameters "$limit=5&$or[][b]=x" =
      [⟨⟨"$limit", []⟩, .int 5⟩, ⟨⟨"$or", [.append, .key "b"]⟩, .string "x"⟩] := by decide
  have hdecode : QueryString.decode "$limit=5&$or[][b]=x" =
      .object [("$limit", .int 5), ("$or", .array [.object [("b", .string "x")]])] := by
    rw [QueryString.decode, hparameters]
    rfl
  have hcompile : ∃ q, compileQueryString "SELECT 1" "$limit=5&$or[][b]=x" none = .ok q := by
    rw [compileQueryString, hdecode]
    exact ⟨_, rfl⟩
  obtain ⟨q, hq⟩ := hcompile
  obtain ⟨members, _, tail, _, hmembers, -, hsql, -, -, hwhere⟩ :=
    contributes_of_compileQueryString hq
  cases hdecode.symm.trans hmembers
  exact ⟨q, hq, tail, hsql, hwhere.mpr ⟨_, List.mem_cons_of_mem _ List.mem_cons_self, rfl⟩⟩

end RowFilter
