import RowFilter.Filter.Basic
import RowFilter.Filter.Error

/-!
Reading a filter from its document, an object whose members are conditions and directives. Members
are read in document order and the first fault is the error; the three paging directives are read
after all conditions, wherever they stand.
-/

set_option autoImplicit false

namespace RowFilter

/-- How a member of a filter is read. -/
inductive MemberKind where
  | pagination
  | disjunction
  | field
deriving DecidableEq, Repr

namespace MemberKind

def disjunctionKey : String := "$or"

def limitKey : String := "$limit"

def skipKey : String := "$skip"

def sortKey : String := "$sort"

def ofKey (key : String) : MemberKind :=
  if key = limitKey ∨ key = skipKey ∨ key = sortKey then .pagination
  else if key = disjunctionKey then .disjunction
  else .field

end MemberKind

/-- The name of a field, checked. -/
def Identifier.ofFieldName (name : String) : Except FilterError Identifier :=
  match Identifier.ofString? name with
  | some field => .ok field
  | none => .error (.invalidFieldName name)

/-- One member of a comparison object: a directive and a scalar operand. -/
def Comparison.ofMember (field : Identifier) (member : String × Json) :
    Except FilterError Comparison :=
  match Operator.ofDirective? member.1, member.2 with
  | none, _ => .error (.invalidOperator member.1)
  | some operator, .scalar operand => .ok ⟨operator, operand⟩
  | some _, _ => .error (.invalidFieldValue field.text)

/-- What the value of a field asks of it. -/
def Condition.ofJson (field : Identifier) : Json → Except FilterError Condition
  | .scalar s => .ok (.ofScalar s)
  | .object directives => (directives.mapM (Comparison.ofMember field)).map .compare
  | .array _ => .error (.invalidFieldValue field.text)

/-- A field name with its value. -/
def FieldCondition.ofMember (member : String × Json) : Except FilterError FieldCondition := do
  let field ← Identifier.ofFieldName member.1
  let condition ← Condition.ofJson field member.2
  return ⟨field, condition⟩

/-- The alternative at a place of a group: an object with exactly one member. -/
def FieldCondition.ofAlternative (index : Nat) : Json → Except FilterError FieldCondition
  | .object [member] => FieldCondition.ofMember member
  | _ => .error (.invalidDisjunctionEntry index)

/-- The alternatives of a group whose first has the given place. -/
def FieldCondition.ofAlternatives (index : Nat) :
    List Json → Except FilterError (List FieldCondition)
  | [] => .ok []
  | item :: rest => do
    let alternative ← FieldCondition.ofAlternative index item
    let alternatives ← FieldCondition.ofAlternatives (index + 1) rest
    return alternative :: alternatives

/-- The group that a disjunction directive stands for; null stands for none. -/
def FieldCondition.ofDisjunction : Json → Except FilterError (Option (List FieldCondition))
  | .null => .ok none
  | .array items => (FieldCondition.ofAlternatives 0 items).map some
  | _ => .error .invalidDisjunction

/-- The entry that a member contributes, if it does. -/
def Entry.ofMember (member : String × Json) : Except FilterError (Option Entry) :=
  match MemberKind.ofKey member.1 with
  | .pagination => .ok none
  | .disjunction => (FieldCondition.ofDisjunction member.2).map fun group ↦ group.map .anyOf
  | .field => (FieldCondition.ofMember member).map fun c ↦ some (.field c)

/-- A sort field with its direction. -/
def SortTerm.ofMember (member : String × Json) : Except FilterError SortTerm :=
  match Identifier.ofString? member.1 with
  | some field => .ok ⟨field, Direction.ofJson member.2⟩
  | none => .error (.invalidSortField member.1)

/-- The terms of a sort directive; null asks for no order. -/
def SortTerm.ofJson : Json → Except FilterError (List SortTerm)
  | .null => .ok []
  | .object members => members.mapM SortTerm.ofMember
  | _ => .error .invalidSort

namespace Pagination

/-- The scalar under a paging key, if the key is there. -/
def bound (key : String) (members : List (String × Json)) : Except FilterError (Option Scalar) :=
  match Assoc.get? key members with
  | none => .ok none
  | some (.scalar s) => .ok (some s)
  | some _ => .error (.invalidPagination key)

def ofMembers (members : List (String × Json)) : Except FilterError Pagination := do
  let limit ← bound MemberKind.limitKey members
  let skip ← bound MemberKind.skipKey members
  let sort ← match Assoc.get? MemberKind.sortKey members with
    | none => .ok []
    | some value => SortTerm.ofJson value
  return ⟨limit, skip, sort⟩

end Pagination

namespace Filter

def ofMembers (members : List (String × Json)) : Except FilterError Filter := do
  let entries ← members.mapM Entry.ofMember
  let pagination ← Pagination.ofMembers members
  return ⟨entries.filterMap id, pagination⟩

def ofJson : Json → Except FilterError Filter
  | .object members => ofMembers members
  | _ => .error .notAnObject

end Filter

end RowFilter
