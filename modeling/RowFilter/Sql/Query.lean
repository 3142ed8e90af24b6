import RowFilter.Sql.Text
import RowFilter.Text.Blank

/-!
Compiling a filter onto a base statement. The result is one text and the values for its
placeholders, `values[n - 1]` for placeholder `n`.
-/

set_option autoImplicit false

namespace RowFilter

@[ext]
structure Query where
  sql : String
  values : List Scalar
deriving DecidableEq

namespace Sql

/-- The number of the first placeholder of a statement. -/
def firstPlaceholder : Nat := 1

/-- The base without blanks around it and the sections, with single spaces between them; an empty
base leaves no space. -/
def attach (base : String) (sections : List String) : String :=
  let base := Text.trim base
  String.intercalate " " (if base = "" then sections else base :: sections)

end Sql

/-- Compiles a filter onto a base statement. Every invariant was checked when the filter was built,
so this always succeeds. -/
def Filter.compile (f : Filter) (base : String) (aliases : Option AliasMap) : Query :=
  let template := Sql.Template.ofFilter f
  let numbered := template.numbered Sql.firstPlaceholder
  ⟨Sql.attach base (numbered.sections (Sql.columns aliases)), template.operands⟩

end RowFilter
