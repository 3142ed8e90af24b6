/-!
The reasons for which a document is no filter, and their texts.
-/

set_option autoImplicit false

namespace RowFilter

inductive FilterError where
  | invalidFieldName (name : String)
  | invalidOperator (directive : String)
  | invalidDisjunctionEntry (index : Nat)
  | invalidSortField (name : String)
  | notAnObject
  | invalidFieldValue (field : String)
  | invalidDisjunction
  | invalidPagination (key : String)
  | invalidSort
deriving DecidableEq, Repr

def FilterError.message : FilterError → String
  | .invalidFieldName name => "invalid field name: " ++ name
  | .invalidOperator directive => "invalid operator: " ++ directive
  | .invalidDisjunctionEntry index =>
    "invalid use of $or operator: entry " ++ toString index ++ " must have exactly one field"
  | .invalidSortField name => "invalid sort field: " ++ name
  | .notAnObject => "filter must be a JSON object"
  | .invalidFieldValue field => "invalid value for field: " ++ field
  | .invalidDisjunction => "invalid use of $or operator: expected an array of objects"
  | .invalidPagination key => "invalid pagination value for " ++ key
  | .invalidSort => "invalid $sort: expected an object of field directions"

end RowFilter
