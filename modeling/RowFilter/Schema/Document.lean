import RowFilter.Filter.OfJson
import RowFilter.Schema.Basic

/-!
The JSON Schema of the filters that a schema accepts.
-/

set_option autoImplicit false

namespace RowFilter.Schema

/-- A value of the type, or null. -/
def operandDocument (type : FieldType) : Json :=
  .object [("type", type.toJson), ("nullable", .bool true)]

/-- A value of the type, or an object of comparisons with such values. -/
def fieldDocument (type : FieldType) : Json :=
  let comparisons := Operator.all.map fun op ↦ (op.directive, operandDocument type)
  .object [("anyOf", .array [
    .object [("type", type.toJson)],
    .object [("type", .string "object"), ("additionalProperties", .bool false),
      ("properties", .object comparisons)]])]

/-- Objects with at most one member, which is a declared field. -/
def disjunctionDocument (properties : List (String × Json)) : Json :=
  .object [("type", .string "array"),
    ("items", .object [("type", .string "object"), ("maxProperties", .int 1),
      ("additionalProperties", .bool false), ("properties", .object properties)])]

/-- A whole number from zero on, or null. -/
def boundDocument (default : Nat) : Json :=
  .object [("type", .string "integer"), ("nullable", .bool true), ("minimum", .int 0),
    ("default", .int default)]

def sortDocument : Json :=
  .object [("type", .string "object"),
    ("additionalProperties",
      .object [("type", .string "integer"), ("enum", .array [.int 1, .int (-1)])]),
    ("nullable", .bool true)]

/-- The declared fields, in the order of their names. -/
def fieldProperties (s : Schema) : List (String × Json) :=
  s.fields.entries.map fun e ↦ (e.1, fieldDocument e.2)

/-- All members that a filter may have. A directive takes the place of a field of its name. -/
def properties (s : Schema) : List (String × Json) :=
  [(MemberKind.disjunctionKey, disjunctionDocument s.fieldProperties),
    (MemberKind.limitKey, boundDocument Filter.defaultLimit),
    (MemberKind.skipKey, boundDocument 0),
    (MemberKind.sortKey, sortDocument)].foldl
      (fun members m ↦ Assoc.put m.1 m.2 members) s.fieldProperties

def document (s : Schema) : Json :=
  .object [("type", .string "object"), ("additionalProperties", .bool false),
    ("properties", .object s.properties)]

end RowFilter.Schema
