/-!
Column and alias names. A name is written into a statement as it stands, so a value of the type
`Identifier` is the evidence that its text has been checked: ASCII letters, digits and underscores,
and at least one of them.
-/

set_option autoImplicit false

namespace RowFilter

def isWordChar (c : Char) : Bool := c.isAlphanum || c = '_'

def isIdentifier (text : String) : Bool := !text.toList.isEmpty && text.toList.all isWordChar

structure Identifier where
  text : String
  valid : isIdentifier text = true
deriving DecidableEq

namespace Identifier

def ofString? (text : String) : Option Identifier :=
  if h : isIdentifier text = true then some ⟨text, h⟩ else none

/-- The longest run of word characters at the start and the text behind it, if there is a run. -/
def split? (text : List Char) : Option (List Char × List Char) :=
  match text.takeWhile isWordChar with
  | [] => none
  | word => some (word, text.dropWhile isWordChar)

theorem ofString?_eq_some_iff {text : String} {i : Identifier} :
    ofString? text = some i ↔ i.text = text := by
  unfold ofString?
  split
  · constructor
    · intro h
      cases h
      rfl
    · rintro rfl
      rfl
  · rename_i h
    simp only [reduceCtorEq, false_iff]
    rintro rfl
    exact h i.valid

theorem ofString?_eq_none_iff {text : String} :
    ofString? text = none ↔ isIdentifier text = false := by
  simp [ofString?]

end Identifier

end RowFilter
