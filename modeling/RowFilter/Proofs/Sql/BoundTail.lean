import RowFilter.Proofs.Sql.Numbering
import RowFilter.Proofs.Sql.Rendering

/-!
The tail of a filter with its values in place of numbers, spelled from the entries alone.
`Filter.map_tail` says that each number of a compiled filter stands where the value that it is the
number of belongs, although the numbers follow the entries and the text does not.
-/

set_option autoImplicit false

namespace RowFilter

open Sql

/-! ### What the entries ask for -/

/-- What a condition asks of its column. -/
def Condition.tests : Condition → List (Test Scalar)
  | .isNull => [.isNull]
  | .equals .null => [.isNull]
  | .equals s => [.equals s]
  | .compare cs => cs.map fun c ↦
      match c with
      | ⟨.ne, .null⟩ => .isNotNull
      | ⟨op, s⟩ => .compare op s

def FieldCondition.predicates (c : FieldCondition) : List (Predicate Scalar) :=
  c.condition.tests.map fun test ↦ ⟨c.field, test⟩

def Entry.predicates : Entry → List (Predicate Scalar)
  | .field c => c.predicates
  | .anyOf cs => cs.flatMap FieldCondition.predicates

/-- The group of an entry with alternatives, if it yields a predicate. -/
def Entry.groups (column : Identifier → Column) : Entry → List (Conjunct Scalar)
  | .field _ => []
  | .anyOf cs =>
    if (Entry.anyOf cs).predicates = [] then []
    else [.group ((Entry.anyOf cs).predicates.map (.ofPredicate column))]

/-- The predicates of an entry on a single field. -/
def Entry.singles (column : Identifier → Column) : Entry → List (Conjunct Scalar)
  | .field c => c.predicates.map fun p ↦ .single (.ofPredicate column p)
  | .anyOf _ => []

namespace Filter

/-- What a filter asks for, in the order of the text. -/
def boundTail (f : Filter) (aliases : Option AliasMap) : Tail Scalar where
  conjuncts := f.entries.flatMap (Entry.groups (Column.of aliases)) ++
    f.entries.flatMap (Entry.singles (Column.of aliases))
  sort := f.pagination.sort.map fun t ↦ (Column.of aliases t.field, t.direction)
  limit := f.pagination.limit.getD (.int 10)
  skip := f.pagination.skip

end Filter

/-! ### The template of a filter -/

theorem Condition.tests_eq (c : Condition) : c.tests = Test.ofCondition c := by
  cases c with
  | isNull => rfl
  | equals s => cases s <;> rfl
  | compare cs =>
    refine List.map_congr_left fun c _ ↦ ?_
    obtain ⟨operator, operand⟩ := c
    cases operator <;> cases operand <;> rfl

theorem FieldCondition.predicates_eq (c : FieldCondition) :
    c.predicates = Predicate.ofFieldCondition c := by
  rw [predicates, Condition.tests_eq, Predicate.ofFieldCondition]

theorem Entry.predicates_eq (e : Entry) : e.predicates = (Clause.ofEntry e).predicates := by
  cases e with
  | field c => exact c.predicates_eq
  | anyOf cs => exact List.flatMap_congr fun c _ ↦ c.predicates_eq

theorem Entry.groups_eq (column : Identifier → Column) (e : Entry) :
    e.groups column =
      if (Clause.ofEntry e).isGroup then Conjunct.ofClause column (Clause.ofEntry e) else [] := by
  cases e with
  | field c => rfl
  | anyOf cs =>
    rw [Entry.groups, Entry.predicates_eq, Clause.ofEntry, Clause.ofAlternatives, Clause.predicates]
    cases cs.flatMap Predicate.ofFieldCondition <;> rfl

theorem Entry.singles_eq (column : Identifier → Column) (e : Entry) :
    e.singles column =
      if !(Clause.ofEntry e).isGroup then Conjunct.ofClause column (Clause.ofEntry e) else [] := by
  cases e with
  | field c =>
    rw [Entry.singles, FieldCondition.predicates_eq]
    rfl
  | anyOf cs => rfl

theorem flatMap_filter_eq {α β : Type} (keep : α → Bool) (g : α → List β) (as : List α) :
    (as.filter keep).flatMap g = as.flatMap fun a ↦ if keep a then g a else [] := by
  induction as with
  | nil => rfl
  | cons a rest ih =>
    rw [List.flatMap_cons, ← ih]
    by_cases ha : keep a = true
    · rw [List.filter_cons_of_pos ha, List.flatMap_cons, if_pos ha]
    · rw [List.filter_cons_of_neg ha, if_neg ha, List.nil_append]

/-- The conjuncts of entries, those of the groups first. -/
theorem Entry.ofClauses_eq (column : Identifier → Column) (es : List Entry) :
    Conjunct.ofClauses column (es.map Clause.ofEntry) =
      es.flatMap (Entry.groups column) ++ es.flatMap (Entry.singles column) := by
  simp only [Conjunct.ofClauses, flatMap_filter_eq, List.flatMap_map, ← Entry.groups_eq,
    ← Entry.singles_eq]

theorem Filter.ofTemplate_ofFilter (f : Filter) (aliases : Option AliasMap) :
    Tail.ofTemplate (Column.of aliases) (Template.ofFilter f) = f.boundTail aliases :=
  congrArg (Tail.mk · _ _ _) (Entry.ofClauses_eq (Column.of aliases) f.entries)

/-! ### Numbers and values -/

namespace Filter

/-- With each number replaced by the value at its place, the tail of the text is what the filter
asks for. -/
theorem map_tail (f : Filter) (base : String) (aliases : Option AliasMap) :
    (f.tail aliases).map (fun n ↦ (f.compile base aliases).values[n - 1]?) =
      (f.boundTail aliases).map some := by
  rw [tail, Tail.map_ofTemplate, ← ofTemplate_ofFilter, Tail.map_ofTemplate]
  exact congrArg _ (Template.map_getElem?_numbered firstPlaceholder (Template.ofFilter f))

end Filter

end RowFilter
