import RowFilter.Filter.Basic

/-!
The clauses of a query as values, with holes where operands are bound. A hole first holds the scalar
to bind; numbering replaces the scalars by placeholder numbers, counted in the order of the holes.
Holes are counted in the order of the entries of a filter, so the numbers do not depend on where the
clauses are placed in the text.
-/

set_option autoImplicit false

namespace RowFilter.Sql

/-- What a predicate asks of its column. -/
inductive Test (α : Type) where
  | isNull
  | isNotNull
  | equals (operand : α)
  | compare (operator : Operator) (operand : α)
deriving DecidableEq

structure Predicate (α : Type) where
  field : Identifier
  test : Test α
deriving DecidableEq

/-- What an entry of a filter contributes: predicates that are all to hold, or a group of which one
is to hold. -/
inductive Clause (α : Type) where
  | all (predicates : List (Predicate α))
  | any (predicates : List (Predicate α))
deriving DecidableEq

/-- Everything that a filter adds to a statement. -/
structure Template (α : Type) where
  clauses : List (Clause α)
  sort : List SortTerm
  limit : α
  skip : Option α
deriving DecidableEq

namespace Test

variable {α : Type}

def operands : Test α → List α
  | .isNull => []
  | .isNotNull => []
  | .equals a => [a]
  | .compare _ a => [a]

/-- The test with the placeholder `n` for its operand, if it has one. -/
def numbered (n : Nat) : Test α → Test Nat
  | .isNull => .isNull
  | .isNotNull => .isNotNull
  | .equals _ => .equals n
  | .compare op _ => .compare op n

/-- Only inequality with null is a test of its own; any other comparison binds its operand, null
included. -/
def ofComparison (c : Comparison) : Test Scalar :=
  if c.operator = .ne ∧ c.operand = .null then .isNotNull else .compare c.operator c.operand

def ofCondition : Condition → List (Test Scalar)
  | .isNull => [.isNull]
  | .equals .null => [.isNull]
  | .equals s => [.equals s]
  | .compare cs => cs.map ofComparison

theorem operands_numbered (n : Nat) (t : Test α) :
    (t.numbered n).operands = List.range' n t.operands.length := by
  cases t <;> rfl

end Test

namespace Predicate

variable {α : Type}

def operands (p : Predicate α) : List α := p.test.operands

def numbered (n : Nat) (p : Predicate α) : Predicate Nat := ⟨p.field, p.test.numbered n⟩

/-- Numbers the holes of several predicates in order, starting from `n`. -/
def numberedAll (n : Nat) : List (Predicate α) → List (Predicate Nat)
  | [] => []
  | p :: rest => p.numbered n :: numberedAll (n + p.operands.length) rest

def ofFieldCondition (c : FieldCondition) : List (Predicate Scalar) :=
  (Test.ofCondition c.condition).map fun test ↦ ⟨c.field, test⟩

/-- The numbers count on without a gap. -/
theorem operands_numberedAll (n : Nat) (ps : List (Predicate α)) :
    (numberedAll n ps).flatMap operands = List.range' n (ps.flatMap operands).length := by
  induction ps generalizing n with
  | nil => rfl
  | cons p ps ih =>
    simp only [numberedAll, List.flatMap_cons, List.length_append, ih, ← List.range'_append_1]
    congr 1
    exact Test.operands_numbered n p.test

end Predicate

namespace Clause

variable {α : Type}

def predicates : Clause α → List (Predicate α)
  | .all ps => ps
  | .any ps => ps

def operands (c : Clause α) : List α := c.predicates.flatMap Predicate.operands

def numbered (n : Nat) : Clause α → Clause Nat
  | .all ps => .all (Predicate.numberedAll n ps)
  | .any ps => .any (Predicate.numberedAll n ps)

/-- Numbers the holes of several clauses in order, starting from `n`. -/
def numberedAll (n : Nat) : List (Clause α) → List (Clause Nat)
  | [] => []
  | c :: rest => c.numbered n :: numberedAll (n + c.operands.length) rest

def ofCondition (c : FieldCondition) : Clause Scalar := .all (Predicate.ofFieldCondition c)

/-- A group lists all predicates of all its alternatives. -/
def ofAlternatives (cs : List FieldCondition) : Clause Scalar :=
  .any (cs.flatMap Predicate.ofFieldCondition)

def ofEntry : Entry → Clause Scalar
  | .field c => ofCondition c
  | .anyOf cs => ofAlternatives cs

theorem operands_numbered (n : Nat) (c : Clause α) :
    (c.numbered n).operands = List.range' n c.operands.length := by
  cases c <;> exact Predicate.operands_numberedAll n _

theorem operands_numberedAll (n : Nat) (cs : List (Clause α)) :
    (numberedAll n cs).flatMap operands = List.range' n (cs.flatMap operands).length := by
  induction cs generalizing n with
  | nil => rfl
  | cons c cs ih =>
    simp only [numberedAll, List.flatMap_cons, List.length_append, ih, ← List.range'_append_1,
      operands_numbered]

end Clause

namespace Template

variable {α : Type}

/-- The operands of the clauses, before the bounds of the page. -/
def clauseOperands (t : Template α) : List α := t.clauses.flatMap Clause.operands

/-- All operands in the order of their numbers. -/
def operands (t : Template α) : List α := t.clauseOperands ++ t.limit :: t.skip.toList

/-- Numbers all holes in order, starting from `n`. -/
def numbered (n : Nat) (t : Template α) : Template Nat :=
  let limit := n + t.clauseOperands.length
  ⟨Clause.numberedAll n t.clauses, t.sort, limit, t.skip.map fun _ ↦ limit + 1⟩

/-- The bound on the number of rows is always there. -/
def limitOf (p : Pagination) : Scalar := p.limit.getD (.int Filter.defaultLimit)

def ofFilter (f : Filter) : Template Scalar :=
  ⟨f.entries.map Clause.ofEntry, f.pagination.sort, limitOf f.pagination, f.pagination.skip⟩

/-- The holes of a numbered template hold consecutive numbers. -/
theorem operands_numbered (n : Nat) (t : Template α) :
    (t.numbered n).operands = List.range' n t.operands.length := by
  have h := Clause.operands_numberedAll n t.clauses
  cases hs : t.skip with
  | none => simp [operands, clauseOperands, numbered, hs, h, ← List.range'_append_1]
  | some skip =>
    simp [operands, clauseOperands, numbered, hs, h, ← List.range'_append_1]
    rfl

end Template

end RowFilter.Sql
