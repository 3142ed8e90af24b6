import RowFilter.Filter.OfJson
import RowFilter.QueryString.Decode
import RowFilter.Sql.Query

/-!
From a filter document or a query string to a statement with its values.
-/

set_option autoImplicit false

namespace RowFilter

/-- A document that could not be compiled, with the reason. -/
structure CompileError where
  cause : FilterError
deriving DecidableEq, Repr

def CompileError.message (e : CompileError) : String := "compile error: " ++ e.cause.message

/-- Reads a filter document and compiles it onto a base statement. -/
def compileDocument (base : String) (document : Json) (aliases : Option AliasMap) :
    Except CompileError Query :=
  match Filter.ofJson document with
  | .ok filter => .ok (filter.compile base aliases)
  | .error cause => .error ⟨cause⟩

/-- Decodes a query string and compiles the document onto a base statement. -/
def compileQueryString (base query : String) (aliases : Option AliasMap) :
    Except CompileError Query :=
  compileDocument base (QueryString.decode query) aliases

end RowFilter
