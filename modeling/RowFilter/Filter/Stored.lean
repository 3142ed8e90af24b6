import RowFilter.Filter.Basic
import RowFilter.Json.Record

/-!
The stored form of a filter: a JSON document that spells out its structure, so that an entry, a
condition and a direction each carry their kind by name. Restoring checks every name and ignores
unknown parts. A condition is read in one pass: a value that stands before its kind is kept until
the kind is known, and the operators in it are then read leniently. A bound of null is read as a
bound that was left out, so null is the one value that does not survive being stored.
-/

set_option autoImplicit false

namespace RowFilter

def Identifier.store (i : Identifier) : Json := .string i.text

def Identifier.restore? : Json → Option Identifier
  | .string s => Identifier.ofString? s
  | _ => none

theorem Identifier.restore?_store (i : Identifier) : restore? i.store = some i :=
  Identifier.ofString?_eq_some_iff.mpr rfl

def Operator.store (op : Operator) : Json := .string op.directive

def Operator.restore? (strictness : Json.Strictness) (j : Json) : Option Operator :=
  (j.name? strictness).bind Operator.ofDirective?

theorem Operator.restore?_store (strictness : Json.Strictness) (op : Operator) :
    restore? strictness op.store = some op :=
  ofDirective?_directive op

namespace Comparison

def store (c : Comparison) : Json :=
  .object [("operator", c.operator.store), ("value", .scalar c.operand)]

def restore? (strictness : Json.Strictness) (j : Json) : Option Comparison := do
  let parts := ["operator", "value"]
  let operator ← Operator.restore? strictness (← j.part? parts "operator")
  let operand ← (← j.part? parts "value").toScalar?
  return ⟨operator, operand⟩

theorem restore?_store (strictness : Json.Strictness) (c : Comparison) :
    restore? strictness c.store = some c := by
  simp [restore?, store, Json.part?, Assoc.get?, Operator.restore?_store, Json.toScalar?]

end Comparison

namespace Condition

def store : Condition → Json
  | .equals s => .object [("kind", .string "equals"), ("value", .scalar s)]
  | .isNull => .object [("kind", .string "is_null")]
  | .compare cs =>
    .object [("kind", .string "compare"), ("value", .array (cs.map Comparison.store))]

/-- Restores a condition of the named kind from what was stored as its value. -/
def ofKind? (strictness : Json.Strictness) (kind : String) (value : Option Json) :
    Option Condition :=
  match kind, value with
  | "equals", some (.scalar s) => some (.equals s)
  | "is_null", none => some .isNull
  | "is_null", some .null => some .isNull
  | "compare", some (.array items) => (items.mapM (Comparison.restore? strictness)).map .compare
  | _, _ => none

def restore? (j : Json) : Option Condition := do
  let parts := ["kind", "value"]
  let kind ← (← j.part? parts "kind").name? .strict
  let strictness := if j.precedes "value" "kind" then .lenient else .strict
  ofKind? strictness kind (j.part? parts "value")

theorem restore?_store (c : Condition) : restore? c.store = some c := by
  cases c <;> simp [restore?, store, Json.part?, Assoc.get?, ofKind?,
    Json.mapM_map_eq_some (Comparison.restore?_store _)]

end Condition

namespace FieldCondition

def store (c : FieldCondition) : Json :=
  .object [("field", c.field.store), ("condition", c.condition.store)]

def restore? (j : Json) : Option FieldCondition := do
  let parts := ["field", "condition"]
  let field ← Identifier.restore? (← j.part? parts "field")
  let condition ← Condition.restore? (← j.part? parts "condition")
  return ⟨field, condition⟩

theorem restore?_store (c : FieldCondition) : restore? c.store = some c := by
  simp [restore?, store, Json.part?, Assoc.get?, Identifier.restore?_store,
    Condition.restore?_store]

end FieldCondition

namespace Entry

def store : Entry → Json
  | .field c => .object [("field", c.store)]
  | .anyOf cs => .object [("or", .array (cs.map FieldCondition.store))]

/-- Of the two kinds, a condition of its own is always an object; only the alternatives of a group
may be written as arrays of their parts. -/
def restore? : Json → Option Entry
  | .object [("field", .object parts)] => (FieldCondition.restore? (.object parts)).map .field
  | .object [("or", .array items)] => (items.mapM FieldCondition.restore?).map .anyOf
  | _ => none

theorem restore?_store (e : Entry) : restore? e.store = some e := by
  cases e with
  | field c => exact congrArg (Option.map Entry.field) (FieldCondition.restore?_store c)
  | anyOf cs => simp [restore?, store, Json.mapM_map_eq_some FieldCondition.restore?_store]

end Entry

namespace Direction

def store : Direction → Json
  | .asc => .string "asc"
  | .desc => .string "desc"

def restore? (j : Json) : Option Direction :=
  match j.name? .strict with
  | some "asc" => some .asc
  | some "desc" => some .desc
  | _ => none

theorem restore?_store (d : Direction) : restore? d.store = some d := by
  cases d <;> rfl

end Direction

namespace SortTerm

def store (t : SortTerm) : Json :=
  .object [("field", t.field.store), ("direction", t.direction.store)]

def restore? (j : Json) : Option SortTerm := do
  let parts := ["field", "direction"]
  let field ← Identifier.restore? (← j.part? parts "field")
  let direction ← Direction.restore? (← j.part? parts "direction")
  return ⟨field, direction⟩

theorem restore?_store (t : SortTerm) : restore? t.store = some t := by
  simp [restore?, store, Json.part?, Assoc.get?, Identifier.restore?_store,
    Direction.restore?_store]

end SortTerm

namespace Pagination

/-- A bound that was left out is stored as null. -/
def storeBound : Option Scalar → Json
  | none => .null
  | some s => .scalar s

/-- A bound is a scalar, and null or nothing means that it was left out. -/
def restoreBound? : Option Json → Option (Option Scalar)
  | none => some none
  | some .null => some none
  | some (.scalar s) => some (some s)
  | some _ => none

def store (p : Pagination) : Json :=
  .object [("limit", storeBound p.limit), ("skip", storeBound p.skip),
    ("sort", .array (p.sort.map SortTerm.store))]

def restore? (j : Json) : Option Pagination := do
  let parts := ["limit", "skip", "sort"]
  let limit ← restoreBound? (j.part? parts "limit")
  let skip ← restoreBound? (j.part? parts "skip")
  let items ← (← j.part? parts "sort").items?
  let sort ← items.mapM SortTerm.restore?
  return ⟨limit, skip, sort⟩

end Pagination

namespace Filter

def store (f : Filter) : Json :=
  .object [("entries", .array (f.entries.map Entry.store)), ("pagination", f.pagination.store)]

def restore? (j : Json) : Option Filter := do
  let parts := ["entries", "pagination"]
  let items ← (← j.part? parts "entries").items?
  let entries ← items.mapM Entry.restore?
  let pagination ← Pagination.restore? (← j.part? parts "pagination")
  return ⟨entries, pagination⟩

end Filter

end RowFilter
