import RowFilter.Compile
import RowFilter.Proofs.Filter.FieldName
import RowFilter.Proofs.Sql.Rendering
import RowFilter.Proofs.Sql.Vocabulary

/-!
What an input can put into a statement. On each of the three ways from an input to a query, the text
behind the base statement is a phrase of fixed words, placeholders and columns, and a column is a
checked field name of the input, alone or behind a checked alias that the map gives to that very
name. Nothing else of an input reaches the text; its values are bound and not written.
-/

set_option autoImplicit false

namespace RowFilter

namespace Sql

/-- A word is one of the vocabulary. A column has a field name of the input for its name, and an
alias of that name for its qualifier, if it has one. -/
def Lexeme.Vouched (names : List String) (aliases : Option AliasMap) : Lexeme → Prop
  | .word s => s ∈ keywords ∨ s ∈ signs
  | .column c => isIdentifier c.field.text = true ∧ c.field.text ∈ names ∧
      ∀ a ∈ c.qualifier, isIdentifier a.text = true ∧
        ∃ m ∈ aliases, (c.field.text, a.text) ∈ m.toPairs
  | _ => True

/-- Behind the base, a statement is a phrase of vouched lexemes. -/
def VouchedBehind (base : String) (names : List String) (aliases : Option AliasMap)
    (sql : String) : Prop :=
  ∃ ls, sql = Text.trim base ++ gap base ++ String.ofList (textOf ls) ∧ Phrase ls ∧
    ∀ l ∈ ls, l.Vouched names aliases

end Sql

/-- An alias that is written before a field is a pair of the map. -/
theorem AliasMap.mem_toPairs_of_alias? {m : AliasMap} {field : String} {a : Identifier}
    (h : m.alias? field = some a) : (field, a.text) ∈ m.toPairs := by
  have hentry : (field, some a) ∈ m.aliases.entries :=
    Assoc.mem_of_get?_eq_some (Option.join_eq_some_iff.mp h)
  exact List.mem_map.mpr ⟨_, hentry, rfl⟩

namespace Sql

theorem Lexeme.Admitted.vouched {names : List String} {aliases : Option AliasMap}
    {columns : List Column} {l : Lexeme} (h : l.Admitted columns)
    (hcolumns : ∀ c ∈ columns, ∃ i : Identifier, i.text ∈ names ∧ c = Column.of aliases i) :
    l.Vouched names aliases := by
  cases l with
  | word s => exact h
  | column c =>
    obtain ⟨i, hi, rfl⟩ := hcolumns c h
    refine ⟨i.valid, hi, fun a ha ↦ ⟨a.valid, ?_⟩⟩
    obtain ⟨m, hm, halias⟩ := Option.bind_eq_some_iff.mp ha
    exact ⟨m, hm, AliasMap.mem_toPairs_of_alias? halias⟩
  | placeholder n => trivial
  | blank => trivial
  | comma => trivial
  | opening => trivial
  | closing => trivial

/-! ### The columns of a tail -/

variable {α : Type}

theorem Predicate.field_numberedAll (n : Nat) (ps : List (Predicate α)) :
    (numberedAll n ps).map field = ps.map field := by
  induction ps generalizing n with
  | nil => rfl
  | cons p rest ih => exact congrArg (p.field :: ·) (ih _)

theorem Clause.fields_numberedAll (n : Nat) (cs : List (Clause α)) :
    (numberedAll n cs).flatMap (fun c ↦ c.predicates.map Predicate.field) =
      cs.flatMap fun c ↦ c.predicates.map Predicate.field := by
  induction cs generalizing n with
  | nil => rfl
  | cons c rest ih =>
    have hc : (c.numbered n).predicates.map Predicate.field = c.predicates.map Predicate.field := by
      cases c <;> exact Predicate.field_numberedAll n _
    simp only [numberedAll, List.flatMap_cons, ih, hc]

/-- The fields of the predicates and of the order. -/
def Template.fields (t : Template α) : List Identifier :=
  t.clauses.flatMap (fun c ↦ c.predicates.map Predicate.field) ++ t.sort.map SortTerm.field

theorem Template.fields_numbered (n : Nat) (t : Template α) : (t.numbered n).fields = t.fields :=
  congrArg (· ++ t.sort.map SortTerm.field) (Clause.fields_numberedAll n t.clauses)

/-- Not every field of a filter has a predicate, but every predicate has a field of the filter. -/
theorem Template.fields_ofFilter_subset (f : Filter) : (ofFilter f).fields ⊆ f.fields := by
  have hcondition (c : FieldCondition) {i : Identifier}
      (hi : i ∈ (Predicate.ofFieldCondition c).map Predicate.field) : i = c.field := by
    simp only [Predicate.ofFieldCondition, List.map_map, List.mem_map] at hi
    obtain ⟨_, -, rfl⟩ := hi
    rfl
  intro i hi
  rcases List.mem_append.mp hi with hi | hi
  · refine List.mem_append_left _ ?_
    obtain ⟨c, hc, hi⟩ := List.mem_flatMap.mp hi
    obtain ⟨e, he, rfl⟩ := List.mem_map.mp hc
    refine List.mem_flatMap.mpr ⟨e, he, ?_⟩
    cases e with
    | field c => exact List.mem_singleton.mpr (hcondition c hi)
    | anyOf cs =>
      simp only [Clause.ofEntry, Clause.ofAlternatives, Clause.predicates, List.map_flatMap] at hi
      obtain ⟨c, hc, hi⟩ := List.mem_flatMap.mp hi
      exact List.mem_map.mpr ⟨c, hc, (hcondition c hi).symm⟩
  · exact List.mem_append_right _ hi

theorem Tail.mem_columns_ofTemplate {column : Identifier → Column} {t : Template α} {c : Column}
    (h : c ∈ (ofTemplate column t).columns) : ∃ i ∈ t.fields, c = column i := by
  rcases List.mem_append.mp h with h | h
  · obtain ⟨k, hk, hc⟩ := List.mem_flatMap.mp h
    obtain ⟨u, hu, rfl⟩ := List.mem_map.mp hc
    obtain ⟨cl, hcl, hk⟩ := mem_conjuncts_ofTemplate.mp hk
    obtain ⟨p, hp, rfl⟩ := (Conjunct.exists_mem_terms_iff column).mp ⟨k, hk, hu⟩
    refine ⟨p.field, List.mem_append_left _ ?_, rfl⟩
    exact List.mem_flatMap.mpr ⟨cl, hcl, List.mem_map_of_mem hp⟩
  · obtain ⟨term, hterm, rfl⟩ := List.mem_map.mp h
    obtain ⟨u, hu, rfl⟩ := List.mem_map.mp hterm
    exact ⟨u.field, List.mem_append_right _ (List.mem_map_of_mem hu), rfl⟩

end Sql

namespace Filter

/-- A column of the text is a field of the filter behind what the map gives to it. -/
theorem mem_columns_tail {f : Filter} {aliases : Option AliasMap} {c : Column}
    (h : c ∈ (f.tail aliases).columns) : ∃ i ∈ f.fields, c = Column.of aliases i := by
  obtain ⟨i, hi, hc⟩ := Sql.Tail.mem_columns_ofTemplate h
  rw [Sql.Template.fields_numbered] at hi
  exact ⟨i, Sql.Template.fields_ofFilter_subset f hi, hc⟩

/-- A compiled filter is vouched for by any list of names that has the names of its fields. -/
theorem vouchedBehind_compile {f : Filter} {names : List String}
    (hnames : ∀ i ∈ f.fields, i.text ∈ names) (base : String) (aliases : Option AliasMap) :
    Sql.VouchedBehind base names aliases (f.compile base aliases).sql := by
  refine ⟨(f.tail aliases).lexemes, f.sql_compile_eq base aliases,
    Sql.Tail.phrase_lexemes (Sql.Tail.filled_ofTemplate _ _), fun l hl ↦ ?_⟩
  refine (Sql.Tail.admitted_lexemes _ l hl).vouched fun c hc ↦ ?_
  obtain ⟨i, hi, hcolumn⟩ := mem_columns_tail hc
  exact ⟨i, hnames i hi, hcolumn⟩

end Filter

theorem vouchedBehind_compileDocument {base : String} {document : Json}
    {aliases : Option AliasMap} {q : Query} (h : compileDocument base document aliases = .ok q) :
    Sql.VouchedBehind base document.fieldNames aliases q.sql := by
  unfold compileDocument at h
  split at h
  · rename_i f hf
    cases h
    exact f.vouchedBehind_compile (fun _ ↦ Filter.text_mem_fieldNames_of_ofJson hf) base aliases
  · cases h

/-- Whatever a document, a query string or a stored filter holds, and whatever the aliases, the text
behind the base statement is a phrase of the vocabulary, of placeholders and of columns, and every
column is a checked field name of the input, bare or behind a checked alias of that name. -/
theorem sql_vouched (base : String) (aliases : Option AliasMap) :
    (∀ document q, compileDocument base document aliases = .ok q →
        Sql.VouchedBehind base document.fieldNames aliases q.sql) ∧
      (∀ query q, compileQueryString base query aliases = .ok q →
        Sql.VouchedBehind base (QueryString.decode query).fieldNames aliases q.sql) ∧
      ∀ document f, Filter.restore? document = some f →
        Sql.VouchedBehind base document.storedNames aliases (f.compile base aliases).sql := by
  refine ⟨fun _ _ ↦ vouchedBehind_compileDocument, fun _ _ ↦ vouchedBehind_compileDocument, ?_⟩
  intro document f h
  exact f.vouchedBehind_compile (fun _ ↦ Filter.text_mem_storedNames_of_restore? h) base aliases

theorem sql_vouched_of_each_input :
    Sql.VouchedBehind "SELECT 1" ["a"] none "SELECT 1 WHERE a > $1 LIMIT $2" ∧
      Sql.VouchedBehind "" ["a"] (some ⟨SortedMap.empty.insert "a" (some ⟨"t", by decide⟩)⟩)
        "WHERE t.a = $1 LIMIT $2" ∧
      Sql.VouchedBehind "" ["a"] none "WHERE a IS NULL LIMIT $1" := by
  have hdocument : compileDocument "SELECT 1"
      (.object [("a", .object [("$gt", .scalar (.int 1))])]) none =
        .ok ⟨"SELECT 1 WHERE a > $1 LIMIT $2", [.int 1, .int 10]⟩ := rfl
  have hquery : compileQueryString "" "a=b"
      (some ⟨SortedMap.empty.insert "a" (some ⟨"t", by decide⟩)⟩) =
        .ok ⟨"WHERE t.a = $1 LIMIT $2", [.string "b", .int 10]⟩ := rfl
  have hstored : Filter.restore? (.object
      [("entries", .array [.object [("field", .object
        [("field", .string "a"), ("condition", .object [("kind", .string "is_null")])])]]),
        ("pagination", .object [("sort", .array [])])]) =
          some ⟨[.field ⟨⟨"a", by decide⟩, .isNull⟩], Pagination.empty⟩ := rfl
  exact ⟨(sql_vouched _ _).1 _ _ hdocument, (sql_vouched _ _).2.1 _ _ hquery,
    (sql_vouched _ _).2.2 _ _ hstored⟩

end RowFilter
