import RowFilter.Proofs.Sql.Numbering
import RowFilter.Sql.Query
import Mathlib.Data.List.Basic
import Mathlib.Data.List.Perm.Basic

/-!
What compiling puts behind a base statement, as a structure. A `Tail` holds the conjuncts of the
condition in the order of the text, groups before single predicates, the sort terms and the bounds
of the page. The order of the text differs from the order of the numbers, and
`Tail.operands_ofTemplate_perm` says that no operand is lost or repeated on the way.
-/

set_option autoImplicit false

namespace RowFilter

/-! ### Columns -/

/-- A field as it stands in a statement, behind the alias that qualifies it if there is one. -/
structure Column where
  qualifier : Option Identifier
  field : Identifier
deriving DecidableEq

namespace Column

def of (aliases : Option AliasMap) (field : Identifier) : Column :=
  ⟨aliases.bind fun m ↦ m.alias? field.text, field⟩

def text (c : Column) : String :=
  match c.qualifier with
  | none => c.field.text
  | some a => a.text ++ "." ++ c.field.text

theorem text_of (aliases : Option AliasMap) (field : Identifier) :
    (of aliases field).text = Sql.columns aliases field := by
  cases aliases with
  | none => rfl
  | some m =>
    simp only [of, text, Sql.columns, AliasMap.qualify, Option.bind_some]
    cases m.alias? field.text <;> rfl

end Column

namespace Sql

variable {α β : Type}

/-! ### The structure of a tail -/

/-- A predicate on a column. -/
structure Term (α : Type) where
  column : Column
  test : Test α
deriving DecidableEq

/-- One conjunct of a condition: a bracketed group of which one term is to hold, or one term. -/
inductive Conjunct (α : Type) where
  | group (terms : List (Term α))
  | single (term : Term α)
deriving DecidableEq

/-- The sections that follow a base statement. -/
structure Tail (α : Type) where
  conjuncts : List (Conjunct α)
  sort : List (Column × Direction)
  limit : α
  skip : Option α
deriving DecidableEq

namespace Term

def ofPredicate (column : Identifier → Column) (p : Predicate α) : Term α :=
  ⟨column p.field, p.test⟩

def operands (t : Term α) : List α := t.test.operands

def map (f : α → β) (t : Term α) : Term β := ⟨t.column, t.test.map f⟩

/-- The term with another column and with other operands. -/
def rewrite (g : Column → Column) (f : α → β) (t : Term α) : Term β := ⟨g t.column, t.test.map f⟩

end Term

namespace Conjunct

/-- A group without predicates leaves no conjunct. -/
def ofClause (column : Identifier → Column) : Clause α → List (Conjunct α)
  | .all ps => ps.map fun p ↦ .single (.ofPredicate column p)
  | .any [] => []
  | .any ps => [.group (ps.map (.ofPredicate column))]

def terms : Conjunct α → List (Term α)
  | .group ts => ts
  | .single t => [t]

def operands (c : Conjunct α) : List α := c.terms.flatMap Term.operands

def map (f : α → β) : Conjunct α → Conjunct β
  | .group ts => .group (ts.map (Term.map f))
  | .single t => .single (t.map f)

def rewrite (g : Column → Column) (f : α → β) : Conjunct α → Conjunct β
  | .group ts => .group (ts.map (Term.rewrite g f))
  | .single t => .single (t.rewrite g f)

theorem rewrite_id (f : α → β) : rewrite id f = map f := by
  funext c
  cases c <;> rfl

theorem rewrite_ofClause (g : Column → Column) (f : α → β) (column : Identifier → Column)
    (c : Clause α) :
    (ofClause column c).map (rewrite g f) = ofClause (fun i ↦ g (column i)) (c.map f) := by
  cases c with
  | all ps =>
    simp only [ofClause, Clause.map, List.map_map]
    rfl
  | any ps =>
    cases ps with
    | nil => rfl
    | cons p rest =>
      simp only [ofClause, Clause.map, List.map_cons, List.map_nil, rewrite, List.map_map]
      rfl

theorem map_ofClause (f : α → β) (column : Identifier → Column) (c : Clause α) :
    (ofClause column c).map (map f) = ofClause column (c.map f) := by
  rw [← rewrite_id]
  exact rewrite_ofClause id f column c

/-- The conjuncts of several clauses, those of the groups first. -/
def ofClauses (column : Identifier → Column) (cs : List (Clause α)) : List (Conjunct α) :=
  (cs.filter Clause.isGroup).flatMap (ofClause column) ++
    (cs.filter fun c ↦ !c.isGroup).flatMap (ofClause column)

/-- Groups are moved to the front and nothing is lost or repeated. -/
theorem ofClauses_perm (column : Identifier → Column) (cs : List (Clause α)) :
    (ofClauses column cs).Perm (cs.flatMap (ofClause column)) := by
  rw [ofClauses, ← List.flatMap_append]
  exact (List.filter_append_perm Clause.isGroup cs).flatMap_right _

theorem isGroup_map (f : α → β) (c : Clause α) : (c.map f).isGroup = c.isGroup := by
  cases c <;> rfl

theorem rewrite_ofClauses (g : Column → Column) (f : α → β) (column : Identifier → Column)
    (cs : List (Clause α)) :
    (ofClauses column cs).map (rewrite g f) =
      ofClauses (fun i ↦ g (column i)) (cs.map (Clause.map f)) := by
  simp only [ofClauses, List.map_append, List.map_flatMap, List.filter_map, List.flatMap_map,
    rewrite_ofClause, Function.comp_def, isGroup_map]

theorem map_ofClauses (f : α → β) (column : Identifier → Column) (cs : List (Clause α)) :
    (ofClauses column cs).map (map f) = ofClauses column (cs.map (Clause.map f)) := by
  rw [← rewrite_id]
  exact rewrite_ofClauses id f column cs

/-- Grouped or not, a clause is written with one term for each of its predicates. -/
theorem terms_ofClause (column : Identifier → Column) (c : Clause α) :
    (ofClause column c).flatMap terms = c.predicates.map (Term.ofPredicate column) := by
  cases c with
  | all ps =>
    rw [ofClause, List.flatMap_map, Clause.predicates]
    exact List.flatMap_pure_eq_map _ _
  | any ps =>
    cases ps with
    | nil => rfl
    | cons p rest => exact List.append_nil _

theorem exists_mem_terms_iff (column : Identifier → Column) {c : Clause α} {t : Term α} :
    (∃ k ∈ ofClause column c, t ∈ k.terms) ↔ ∃ p ∈ c.predicates, .ofPredicate column p = t := by
  rw [← List.mem_flatMap, terms_ofClause, List.mem_map]

theorem operands_ofClause (column : Identifier → Column) (c : Clause α) :
    (ofClause column c).flatMap operands = c.operands := by
  calc (ofClause column c).flatMap operands
      = ((ofClause column c).flatMap terms).flatMap Term.operands := List.flatMap_assoc.symm
    _ = c.predicates.flatMap Predicate.operands := by
      rw [terms_ofClause, List.flatMap_map]
      rfl

end Conjunct

namespace Tail

/-- The sections of a template. The conjuncts of all groups stand before the others. -/
def ofTemplate (column : Identifier → Column) (t : Template α) : Tail α where
  conjuncts := (t.clauses.filter Clause.isGroup).flatMap (Conjunct.ofClause column) ++
    (t.clauses.filter fun c ↦ !c.isGroup).flatMap (Conjunct.ofClause column)
  sort := t.sort.map fun term ↦ (column term.field, term.direction)
  limit := t.limit
  skip := t.skip

/-- The operands in the order of the text. -/
def operands (t : Tail α) : List α :=
  t.conjuncts.flatMap Conjunct.operands ++ t.limit :: t.skip.toList

def map (f : α → β) (t : Tail α) : Tail β :=
  ⟨t.conjuncts.map (Conjunct.map f), t.sort, f t.limit, t.skip.map f⟩

def rewrite (g : Column → Column) (f : α → β) (t : Tail α) : Tail β where
  conjuncts := t.conjuncts.map (Conjunct.rewrite g f)
  sort := t.sort.map fun term ↦ (g term.1, term.2)
  limit := f t.limit
  skip := t.skip.map f

theorem rewrite_id (f : α → β) (t : Tail α) : t.rewrite id f = t.map f := by
  rw [rewrite, Conjunct.rewrite_id]
  exact congrArg (Tail.mk _ · _ _) (List.map_id _)

/-- The tail of a template with other columns and other operands. -/
theorem rewrite_ofTemplate (g : Column → Column) (f : α → β) (column : Identifier → Column)
    (t : Template α) :
    (ofTemplate column t).rewrite g f = ofTemplate (fun i ↦ g (column i)) (t.map f) := by
  simp only [rewrite, ofTemplate, Template.map, List.map_map]
  exact congrArg (Tail.mk · _ _ _) (Conjunct.rewrite_ofClauses g f column t.clauses)

theorem map_ofTemplate (f : α → β) (column : Identifier → Column) (t : Template α) :
    (ofTemplate column t).map f = ofTemplate column (t.map f) := by
  rw [← rewrite_id]
  exact rewrite_ofTemplate id f column t

theorem mem_conjuncts_ofTemplate {column : Identifier → Column} {t : Template α}
    {k : Conjunct α} :
    k ∈ (ofTemplate column t).conjuncts ↔ ∃ c ∈ t.clauses, k ∈ Conjunct.ofClause column c :=
  (Conjunct.ofClauses_perm column t.clauses).mem_iff.trans List.mem_flatMap

/-- Rearranging the clauses for the text only rearranges the operands. -/
theorem operands_ofTemplate_perm (column : Identifier → Column) (t : Template α) :
    (ofTemplate column t).operands.Perm t.operands := by
  have hclauses : (t.clauses.flatMap (Conjunct.ofClause column)).flatMap Conjunct.operands =
      t.clauseOperands := by
    rw [List.flatMap_assoc]
    exact List.flatMap_congr fun c _ ↦ Conjunct.operands_ofClause column c
  have hperm := (Conjunct.ofClauses_perm column t.clauses).flatMap_right Conjunct.operands
  rw [hclauses] at hperm
  exact hperm.append_right _

end Tail

end Sql

end RowFilter
