import RowFilter.Json.Record

/-!
The types that a schema can give to a field: a primitive type, or a union of several. A whole number
is an integer however it is written.
-/

set_option autoImplicit false

namespace RowFilter

inductive PrimitiveType where
  | string
  | number
  | integer
  | boolean
  | null
deriving DecidableEq, Repr

inductive FieldType where
  | single (type : PrimitiveType)
  | union (types : List PrimitiveType)
deriving DecidableEq, Repr

namespace PrimitiveType

def all : List PrimitiveType := [.string, .number, .integer, .boolean, .null]

def name : PrimitiveType → String
  | .string => "string"
  | .number => "number"
  | .integer => "integer"
  | .boolean => "boolean"
  | .null => "null"

/-- Whether a value is of the type. -/
def accepts (type : PrimitiveType) (value : Json) : Bool :=
  match type, value with
  | .string, .string _ => true
  | .number, .number _ => true
  | .integer, .number n => n.toInt?.isSome
  | .boolean, .bool _ => true
  | .null, .null => true
  | _, _ => false

def ofJson? (j : Json) : Option PrimitiveType :=
  (j.name? .strict).bind fun s ↦ all.find? fun type ↦ type.name = s

end PrimitiveType

namespace FieldType

def accepts (type : FieldType) (value : Json) : Bool :=
  match type with
  | .single t => t.accepts value
  | .union ts => ts.any fun t ↦ t.accepts value

/-- The name of the type, or the names of a union between commas. -/
def display : FieldType → String
  | .single t => t.name
  | .union ts => String.intercalate "," (ts.map PrimitiveType.name)

/-- The name of the type, or the array of the names of a union. -/
def toJson : FieldType → Json
  | .single t => .string t.name
  | .union ts => .array (ts.map fun t ↦ .string t.name)

def ofJson? : Json → Option FieldType
  | .array items => (items.mapM PrimitiveType.ofJson?).map .union
  | j => (PrimitiveType.ofJson? j).map .single

end FieldType

end RowFilter
