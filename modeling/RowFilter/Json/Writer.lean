import RowFilter.Json.Basic
import RowFilter.Json.Quoted

/-!
The compact text of a JSON value: no blanks, members in the order in which the object holds them.
-/

set_option autoImplicit false

namespace RowFilter

def Scalar.text : Scalar → String
  | .null => "null"
  | .bool true => "true"
  | .bool false => "false"
  | .number n => n.text
  | .string s => Quoted.encode s

namespace Json

mutual

def text : Json → String
  | .scalar s => s.text
  | .array items => "[" ++ String.intercalate "," (itemTexts items) ++ "]"
  | .object members => "\x7b" ++ String.intercalate "," (memberTexts members) ++ "\x7d"

def itemTexts : List Json → List String
  | [] => []
  | item :: rest => item.text :: itemTexts rest

def memberTexts : List (String × Json) → List String
  | [] => []
  | (name, value) :: rest => (Quoted.encode name ++ ":" ++ value.text) :: memberTexts rest

end

end Json

end RowFilter
