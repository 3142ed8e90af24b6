import RowFilter.Proofs.Sql.Placeholder
import RowFilter.Proofs.Sql.Rewriting
import RowFilter.Proofs.Sql.Vouched

/-!
What aliases change in a statement. A filter is written with aliases as it is written without them,
except that each column stands behind the alias of its field, if that has one; the values are the
same. So only the aliases of fields that the filter names can be seen in its text
(`Filter.compile_eq_qualify`).
-/

set_option autoImplicit false

namespace RowFilter

/-- The column behind what the map gives to its field. -/
def Column.qualify (m : AliasMap) (c : Column) : Column := .of (some m) c.field

namespace Sql

/-- The lexeme with qualified columns. -/
def Lexeme.qualify (m : AliasMap) : Lexeme → Lexeme := rewrite (Column.qualify m) id

def Lexeme.column? : Lexeme → Option Column
  | .column c => some c
  | _ => none

/-! ### Columns among the lexemes -/

theorem picks_column? : Lexeme.Picks Lexeme.column? := ⟨fun _ ↦ rfl, rfl, rfl, rfl, rfl⟩

theorem Term.columns_lexemes (t : Term Nat) : t.lexemes.filterMap Lexeme.column? = [t.column] := by
  have hnone : (t.operands.filterMap fun n ↦ Lexeme.column? (.placeholder n)) = [] :=
    List.filterMap_eq_nil_iff.mpr fun _ _ ↦ rfl
  rw [t.filterMap_lexemes picks_column?, hnone]
  rfl

theorem Conjunct.columns_lexemes (c : Conjunct Nat) :
    c.lexemes.filterMap Lexeme.column? = c.terms.map Term.column := by
  rw [c.filterMap_lexemes picks_column?, List.map_eq_flatMap]
  exact List.flatMap_congr fun t _ ↦ t.columns_lexemes

namespace Tail

theorem columns_lexemes (t : Tail Nat) : t.lexemes.filterMap Lexeme.column? = t.columns := by
  have hpage : (limitLexemes t.limit ++ skipLexemes t.skip).filterMap Lexeme.column? = [] := by
    cases t.skip <;> rfl
  have hsort : (orderLexemes t.sort).filterMap Lexeme.column? = t.sort.map Prod.fst := by
    rw [filterMap_orderLexemes picks_column?, List.map_eq_flatMap]
    rfl
  rw [lexemes, List.append_assoc, List.filterMap_append, List.filterMap_append,
    filterMap_whereLexemes picks_column?, hsort, hpage, List.append_nil, columns]
  exact congrArg (· ++ _) (List.flatMap_congr fun c _ ↦ c.columns_lexemes)

theorem columns_map {α β : Type} (f : α → β) (t : Tail α) : (t.map f).columns = t.columns := by
  have hconjunct (c : Conjunct α) : (c.map f).terms.map Term.column = c.terms.map Term.column := by
    cases c with
    | single u => rfl
    | group us => exact List.map_map
  simp only [columns, map, List.flatMap_map, hconjunct]

end Tail

end Sql

/-! ### Aliases in a compiled filter -/

namespace Filter

open Sql

/-- Aliases qualify the columns of a tail and leave the rest of it as it is. -/
theorem tail_some (f : Filter) (m : AliasMap) :
    f.tail (some m) = (f.tail none).rewrite (Column.qualify m) id := by
  rw [tail, tail, Tail.rewrite_ofTemplate, Template.map_id]
  rfl

/-- The columns of the text are those of the groups, of the other conditions and of the order. -/
theorem columns_tail (f : Filter) (aliases : Option AliasMap) :
    (f.tail aliases).columns = (f.boundTail aliases).columns := by
  have hmap := congrArg Tail.columns (f.map_tail "" aliases)
  rwa [Tail.columns_map, Tail.columns_map] at hmap

/-- Aliases that agree on the fields of a filter qualify its columns alike. -/
theorem qualify_congr {f : Filter} {m other : AliasMap}
    (h : ∀ i ∈ f.fields, m.alias? i.text = other.alias? i.text) :
    (f.tail none).lexemes.map (Lexeme.qualify m) =
      (f.tail none).lexemes.map (Lexeme.qualify other) := by
  refine List.map_congr_left fun l hl ↦ ?_
  have hadmitted := Tail.admitted_lexemes _ l hl
  cases l with
  | column c =>
    obtain ⟨i, hi, rfl⟩ := mem_columns_tail hadmitted
    exact congrArg (fun a ↦ Lexeme.column ⟨a, i⟩) (h i hi)
  | word s => rfl
  | placeholder n => rfl
  | blank => rfl
  | comma => rfl
  | opening => rfl
  | closing => rfl

theorem sql_compile_some (f : Filter) (base : String) (m : AliasMap) :
    (f.compile base (some m)).sql = Text.trim base ++ gap base ++
      String.ofList (textOf ((f.tail none).lexemes.map (Lexeme.qualify m))) := by
  rw [sql_compile_eq, tail_some, Tail.text, Tail.lexemes_rewrite]
  rfl

/-- A filter has one row of words, placeholders and bare columns, which are those of its groups, of
its other conditions and of its order. Without aliases this row is its text behind any base. With
aliases its text is the same row in which every column is qualified, and its values are the same.
Two maps that give the same aliases to the fields of the filter yield the same query. -/
theorem compile_eq_qualify (f : Filter) :
    (∃ ls : List Lexeme, Phrase ls ∧ (∀ s, .word s ∈ ls → s ∈ keywords ∨ s ∈ signs) ∧
        ls.filterMap Lexeme.column? = (f.boundTail none).columns ∧
        ∀ base, (f.compile base none).sql =
            Text.trim base ++ gap base ++ String.ofList (textOf ls) ∧
          ∀ m, (f.compile base (some m)).values = (f.compile base none).values ∧
            (f.compile base (some m)).sql = Text.trim base ++ gap base ++
              String.ofList (textOf (ls.map (Lexeme.qualify m)))) ∧
      ∀ base m other, (∀ i ∈ f.fields, m.alias? i.text = other.alias? i.text) →
        f.compile base (some m) = f.compile base (some other) := by
  constructor
  · refine ⟨(f.tail none).lexemes, Tail.phrase_lexemes (Tail.filled_ofTemplate _ _),
      fun s hs ↦ Tail.admitted_lexemes _ _ hs, ?_, fun base ↦ ⟨f.sql_compile_eq base none, ?_⟩⟩
    · rw [Tail.columns_lexemes, columns_tail]
    · exact fun m ↦ ⟨rfl, f.sql_compile_some base m⟩
  · intro base m other h
    refine Query.ext ?_ rfl
    rw [sql_compile_some, sql_compile_some, qualify_congr h]

/-- The alias of a field that the filter does not name cannot be seen, and an empty alias leaves the
column bare. -/
theorem compile_eq_qualify_of_joined :
    let a : Identifier := ⟨"a", by decide⟩
    let b : Identifier := ⟨"b", by decide⟩
    let f : Filter := ⟨[.field ⟨a, .compare [⟨.lt, .int 1⟩]⟩,
      .anyOf [⟨a, .equals (.int 2)⟩, ⟨b, .isNull⟩]], ⟨none, none, [⟨b, .asc⟩, ⟨a, .desc⟩]⟩⟩
    let m : AliasMap := ⟨(SortedMap.empty.insert "a" (some ⟨"t", by decide⟩)).insert "b" none⟩
    let other : AliasMap := ⟨m.aliases.insert "c" (some ⟨"u", by decide⟩)⟩
    (f.compile "SELECT 1" none).sql =
        "SELECT 1 WHERE (a = $2 OR b IS NULL) AND a < $1 ORDER BY b ASC, a DESC LIMIT $3" ∧
      (f.compile "SELECT 1" (some m)).sql =
        "SELECT 1 WHERE (t.a = $2 OR b IS NULL) AND t.a < $1 ORDER BY b ASC, t.a DESC LIMIT $3" ∧
      f.compile "SELECT 1" (some m) = f.compile "SELECT 1" (some other) :=
  ⟨rfl, rfl, (compile_eq_qualify _).2 _ _ _ (by decide)⟩

end Filter

end RowFilter
