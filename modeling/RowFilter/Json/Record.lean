import RowFilter.Json.Basic

/-!
Records and names in JSON. A record is written as an object with named parts, of which the unknown
ones are ignored, or as the array of exactly its parts in their order. A bare name is written as a
string, or as an object whose only member has that name and null as its value; a lenient reading
takes the empty object there for null.
-/

set_option autoImplicit false

namespace RowFilter.Json

/-- The part with the given name of a record whose parts are `names`. -/
def part? (names : List String) (name : String) : Json → Option Json
  | .object members => Assoc.get? name members
  | .array items => if items.length = names.length then items[names.idxOf name]? else none
  | _ => none

/-- Whether an object has the one member before the other. The parts of an array have no names. -/
def precedes (first second : String) : Json → Bool
  | .object members =>
    (members.find? fun m ↦ m.1 = first ∨ m.1 = second).any fun m ↦ m.1 = first
  | _ => false

inductive Strictness where
  | strict
  | lenient
deriving DecidableEq, Repr

/-- The name that a value spells. -/
def name? (strictness : Strictness) : Json → Option String
  | .string s => some s
  | .object [(s, .null)] => some s
  | .object [(s, .object [])] => if strictness = .lenient then some s else none
  | _ => none

@[simp] theorem name?_string (strictness : Strictness) (s : String) :
    name? strictness (.string s) = some s := rfl

/-- The items of an array. -/
def items? : Json → Option (List Json)
  | .array items => some items
  | _ => none

/-- A list written item by item is read back item by item. -/
theorem mapM_map_eq_some {α β : Type} {write : α → β} {read? : β → Option α}
    (h : ∀ a, read? (write a) = some a) (as : List α) : (as.map write).mapM read? = some as := by
  induction as with
  | nil => rfl
  | cons a as ih => simp [List.mapM_cons, h, ih]

end RowFilter.Json
