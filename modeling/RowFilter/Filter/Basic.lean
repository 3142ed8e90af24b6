import RowFilter.Filter.Operator
import RowFilter.Identifier
import RowFilter.Json.Basic

/-!
Filters: what rows a query asks for, in which order, and which page of them. The entries are all to
hold; an entry is a condition on one field or a group of alternatives. A bound that was supplied as
null is kept apart from one that was left out.
-/

set_option autoImplicit false

namespace RowFilter

structure Comparison where
  operator : Operator
  operand : Scalar
deriving DecidableEq

/-- What is asked of one field. All comparisons of a list are to hold. -/
inductive Condition where
  | equals (value : Scalar)
  | isNull
  | compare (comparisons : List Comparison)
deriving DecidableEq

structure FieldCondition where
  field : Identifier
  condition : Condition
deriving DecidableEq

inductive Entry where
  | field (required : FieldCondition)
  | anyOf (alternatives : List FieldCondition)
deriving DecidableEq

inductive Direction where
  | asc
  | desc
deriving DecidableEq, Repr

structure SortTerm where
  field : Identifier
  direction : Direction
deriving DecidableEq

structure Pagination where
  limit : Option Scalar
  skip : Option Scalar
  sort : List SortTerm
deriving DecidableEq

structure Filter where
  entries : List Entry
  pagination : Pagination
deriving DecidableEq

namespace Condition

/-- Equality with a scalar, where null asks for the absence of a value. -/
def ofScalar : Scalar → Condition
  | .null => .isNull
  | s => .equals s

end Condition

/-- Ascending exactly for the number one; every other value sorts downwards. -/
def Direction.ofJson (value : Json) : Direction :=
  if value.toInt? = some 1 then .asc else .desc

namespace Pagination

def empty : Pagination := ⟨none, none, []⟩

def addSort (p : Pagination) (terms : List SortTerm) : Pagination :=
  { p with sort := p.sort ++ terms }

end Pagination

namespace Filter

def empty : Filter := ⟨[], Pagination.empty⟩

def add (f : Filter) (entry : Entry) : Filter := { f with entries := f.entries ++ [entry] }

/-- How many rows a page has when a filter does not say. -/
def defaultLimit : Nat := 10

end Filter

end RowFilter
