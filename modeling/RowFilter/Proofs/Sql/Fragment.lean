import RowFilter.Proofs.Sql.Numbering
import RowFilter.Sql.Fragment

/-!
Steps of compiling and numbered clauses. A step takes the numbers one by one, as values are bound.
What comes out is the text of clauses that are numbered from its start on, and the number handed
over is the start increased by the number of values. A whole filter is compiled by the step for its
entries and the one for its page, with the order of rows between them (`sections_ofFilter`).
-/

set_option autoImplicit false

namespace RowFilter.Sql

namespace Fragment

variable {α β : Type}

theorem append_assoc (f g h : Fragment) : (f.append g).append h = f.append (g.append h) := by
  simp only [append, List.append_assoc]

/-! ### Steps one after another -/

theorem inOrder_append (step : Nat → α → Fragment) (start : Nat) (first second : List α) :
    inOrder step start (first ++ second) =
      (inOrder step start first).append
        (inOrder step (inOrder step start first).next second) := by
  induction first generalizing start with
  | nil => rfl
  | cons a rest ih =>
    rw [List.cons_append, inOrder, inOrder, ih, append_assoc]
    rfl

/-- Steps that are made of smaller ones are all the smaller ones. -/
theorem inOrder_flatMap (step : Nat → β → Fragment) (f : α → List β) (start : Nat)
    (items : List α) :
    inOrder step start (items.flatMap f) =
      inOrder (fun n a ↦ inOrder step n (f a)) start items := by
  induction items generalizing start with
  | nil => rfl
  | cons a rest ih => rw [List.flatMap_cons, inOrder_append, ih, inOrder]

/-- Where each step hands over its start increased by the number of its values, so do all of them
together. -/
theorem next_inOrder {step : Nat → α → Fragment}
    (hstep : ∀ n a, (step n a).next = n + (step n a).values.length) (start : Nat)
    (items : List α) :
    (inOrder step start items).next = start + (inOrder step start items).values.length := by
  induction items generalizing start with
  | nil => rfl
  | cons a rest ih =>
    rw [inOrder, append, ih, hstep, List.length_append, Nat.add_assoc]

/-! ### The text and the numbers of a step -/

section Steps

variable (column : Columns) (start : Nat)

theorem ofPredicate_eq (p : Predicate Scalar) :
    ofPredicate column start p =
      ⟨[(p.numbered start).text column], p.operands, start + p.operands.length⟩ := by
  obtain ⟨field, test⟩ := p
  cases test <;> rfl

theorem inOrder_ofPredicate (ps : List (Predicate Scalar)) :
    inOrder (ofPredicate column) start ps =
      ⟨(Predicate.numberedAll start ps).map (Predicate.text column),
        ps.flatMap Predicate.operands, start + (ps.flatMap Predicate.operands).length⟩ := by
  induction ps generalizing start with
  | nil => rfl
  | cons p rest ih =>
    rw [inOrder, ofPredicate_eq, ih, append, List.flatMap_cons, List.length_append, Nat.add_assoc]
    rfl

theorem ofCondition_eq (c : FieldCondition) :
    ofCondition column start c =
      ⟨((Clause.ofCondition c).numbered start).conjuncts column, (Clause.ofCondition c).operands,
        start + (Clause.ofCondition c).operands.length⟩ :=
  inOrder_ofPredicate column start _

/-- The alternatives are written one by one, and together they are one group. -/
theorem ofAlternatives_eq (cs : List FieldCondition) :
    ofAlternatives column start cs =
      ⟨((Clause.ofAlternatives cs).numbered start).conjuncts column,
        (Clause.ofAlternatives cs).operands,
        start + (Clause.ofAlternatives cs).operands.length⟩ := by
  have hgroup : inOrder (ofCondition column) start cs =
      inOrder (ofPredicate column) start (cs.flatMap Predicate.ofFieldCondition) :=
    (inOrder_flatMap _ _ start cs).symm
  rw [ofAlternatives, hgroup, inOrder_ofPredicate]
  rfl

/-- Values and numbers follow the entries, although the groups are kept apart. -/
theorem collected_eq (es : List Entry) :
    let clauses := es.map Clause.ofEntry
    let numbered := Clause.numberedAll start clauses
    Collected.ofEntries column start es =
      ⟨(numbered.filter Clause.isGroup).flatMap (Clause.conjuncts column),
        (numbered.filter fun c ↦ !c.isGroup).flatMap (Clause.conjuncts column),
        clauses.flatMap Clause.operands, start + (clauses.flatMap Clause.operands).length⟩ := by
  induction es generalizing start with
  | nil => rfl
  | cons e rest ih =>
    cases e with
    | field c =>
      simp only [Collected.ofEntries, ofCondition_eq, ih, List.map_cons, List.flatMap_cons,
        List.length_append, Nat.add_assoc]
      rfl
    | anyOf cs =>
      simp only [Collected.ofEntries, ofAlternatives_eq, ih, List.map_cons, List.flatMap_cons,
        List.length_append, Nat.add_assoc]
      rfl

theorem ofEntries_eq (es : List Entry) :
    let clauses := es.map Clause.ofEntry
    let values := clauses.flatMap Clause.operands
    ofEntries column start es =
      ⟨(whereText column (Clause.numberedAll start clauses)).toList, values,
        start + values.length⟩ := by
  simp only [ofEntries, collected_eq]
  rfl

theorem ofPagination_eq (p : Pagination) :
    ofPagination start p =
      ⟨limitText start :: (p.skip.map fun _ ↦ skipText (start + 1)).toList,
        Template.limitOf p :: p.skip.toList,
        start + (Template.limitOf p :: p.skip.toList).length⟩ := by
  obtain ⟨limit, skip, sort⟩ := p
  cases skip <;> rfl

end Steps

/-- A filter is compiled in two steps, of which the one for the page counts on from the one for the
entries. The order of rows stands between them and binds nothing. -/
theorem sections_ofFilter (column : Columns) (start : Nat) (f : Filter) :
    let entries := ofEntries column start f.entries
    let page := ofPagination entries.next f.pagination
    ((Template.ofFilter f).numbered start).sections column =
        entries.pieces ++ (orderText column f.pagination.sort).toList ++ page.pieces ∧
      (Template.ofFilter f).operands = entries.values ++ page.values := by
  simp only [ofEntries_eq, ofPagination_eq]
  constructor
  · simp only [Template.sections, Template.numbered, Template.ofFilter, Option.map_map]
    rfl
  · rfl

end Fragment

end RowFilter.Sql
