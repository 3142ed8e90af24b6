import RowFilter.Assoc
import RowFilter.Json.Number

/-!
JSON values. A value is a scalar, an array or an object; the scalars are a type of their own because
they are what a query can bind. Objects keep their members in document order, and the reader and the
query-string decoder give each name only once.
-/

set_option autoImplicit false

namespace RowFilter

inductive Scalar where
  | null
  | bool (b : Bool)
  | number (n : Number)
  | string (s : String)
deriving DecidableEq

inductive Json where
  | scalar (value : Scalar)
  | array (items : List Json)
  | object (members : List (String × Json))

namespace Scalar

def int (n : Int) : Scalar := .number (.int n)

/-- The integer that a number equals, if the scalar is a whole number. -/
def toInt? : Scalar → Option Int
  | .number n => n.toInt?
  | _ => none

end Scalar

namespace Json

@[match_pattern] abbrev null : Json := .scalar .null

@[match_pattern] abbrev bool (b : Bool) : Json := .scalar (.bool b)

@[match_pattern] abbrev number (n : Number) : Json := .scalar (.number n)

@[match_pattern] abbrev string (s : String) : Json := .scalar (.string s)

abbrev int (n : Int) : Json := .scalar (.int n)

def isNull : Json → Bool
  | .null => true
  | _ => false

/-- The scalar that a value is, if it is no container. -/
def toScalar? : Json → Option Scalar
  | .scalar s => some s
  | _ => none

/-- The integer that a value equals, if it is a whole number. -/
def toInt? : Json → Option Int
  | .scalar s => s.toInt?
  | _ => none

end Json

end RowFilter
