import RowFilter.Schema.FieldType
import RowFilter.SortedMap

/-!
Schemas: which fields a filter may name and of which types they are. The fields come in the order of
their names.
-/

set_option autoImplicit false

namespace RowFilter

structure Schema where
  fields : SortedMap FieldType

namespace Schema

def empty : Schema := ⟨SortedMap.empty⟩

/-- Declares a field, in place of an earlier declaration of the same name. -/
def declare (s : Schema) (name : String) (type : FieldType) : Schema :=
  ⟨s.fields.insert name type⟩

def type? (s : Schema) (name : String) : Option FieldType := s.fields.get? name

/-- The record of a field, of which the type is the only part. -/
def storeType (type : FieldType) : Json := .object [("type", type.toJson)]

def restoreField? (member : String × Json) : Option (String × FieldType) := do
  let type ← FieldType.ofJson? (← member.2.part? ["type"] "type")
  return (member.1, type)

/-- The document of the declared fields. -/
def store (s : Schema) : Json :=
  .object (s.fields.entries.map fun e ↦ (e.1, storeType e.2))

def restore? : Json → Option Schema
  | .object members => (members.mapM restoreField?).map fun fields ↦ ⟨SortedMap.ofMembers fields⟩
  | _ => none

end Schema

end RowFilter
