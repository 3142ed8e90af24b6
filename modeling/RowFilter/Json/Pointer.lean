/-!
JSON pointers: the path of a value inside a document, one reference for each step down.
-/

set_option autoImplicit false

namespace RowFilter

/-- The member names and array indices on the way to a value. -/
abbrev Pointer := List String

namespace Pointer

/-- A reference with its tildes and slashes escaped. -/
def escape (reference : String) : String :=
  String.ofList (reference.toList.flatMap fun c ↦
    if c = '~' then ['~', '0'] else if c = '/' then ['~', '1'] else [c])

/-- Each reference behind a slash; the pointer to the whole document is empty. -/
def text (p : Pointer) : String := String.join (p.map fun reference ↦ "/" ++ escape reference)

end Pointer

end RowFilter
