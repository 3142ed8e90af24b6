/-!
The comparisons a filter can ask for besides equality, each with its directive in a filter and its
sign in a statement.
-/

set_option autoImplicit false

namespace RowFilter

inductive Operator where
  | gt
  | lt
  | gte
  | lte
  | ne
deriving DecidableEq, Repr

namespace Operator

def all : List Operator := [.gt, .lt, .gte, .lte, .ne]

def directive : Operator → String
  | .gt => "$gt"
  | .lt => "$lt"
  | .gte => "$gte"
  | .lte => "$lte"
  | .ne => "$ne"

/-- The operator of a directive, in its exact spelling. -/
def ofDirective? (text : String) : Option Operator := all.find? fun op ↦ op.directive = text

def sign : Operator → String
  | .gt => ">"
  | .lt => "<"
  | .gte => ">="
  | .lte => "<="
  | .ne => "!="

theorem mem_all (op : Operator) : op ∈ all := by cases op <;> decide

theorem ofDirective?_directive (op : Operator) : ofDirective? op.directive = some op := by
  cases op <;> decide

end Operator

end RowFilter
