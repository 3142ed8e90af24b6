import RowFilter.QueryString.Coercion
import RowFilter.QueryString.Form
import RowFilter.QueryString.Tree

/-!
Decoding a query string into the document of a filter. Decoding never fails: a pair without a name
or with the value that means "leave it out" is passed over, and pairs past a bound are not read.
-/

set_option autoImplicit false

namespace RowFilter.QueryString

/-- How many pairs of a query string are read. -/
def maxParameters : Nat := 1000

structure Parameter where
  path : Path
  value : Scalar
deriving DecidableEq

/-- The parameter of a pair, unless the pair is passed over. -/
def Parameter.ofPair? (pair : String × String) : Option Parameter :=
  if pair.1 = "" then none
  else (coerce? pair.2).map fun value ↦ ⟨Path.ofName pair.1, value⟩

/-- The tree of parameters stored in order. -/
def Tree.ofParameters (parameters : List Parameter) : Tree :=
  parameters.foldl (fun tree p ↦ tree.insert p.path p.value) []

/-- The parameters of a query string. -/
def parameters (query : String) : List Parameter :=
  (((pieces query).take maxParameters).map pairOf).filterMap Parameter.ofPair?

def decode (query : String) : Json := (Tree.ofParameters (parameters query)).toJson

end RowFilter.QueryString
