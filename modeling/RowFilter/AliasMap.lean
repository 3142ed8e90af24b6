import RowFilter.Identifier
import RowFilter.Json.Basic
import RowFilter.SortedMap

/-!
Table aliases of fields. A field may carry an alias, and its column is then written as alias, point,
name. The empty alias is allowed and means that the column stays bare; any other alias must be an
identifier, which the type of the entries guarantees.
-/

set_option autoImplicit false

namespace RowFilter

/-- The aliases of fields by field name; `none` stands for the empty alias. -/
structure AliasMap where
  aliases : SortedMap (Option Identifier)

/-- An alias that is neither empty nor an identifier. -/
structure AliasError where
  rejected : String
deriving DecidableEq, Repr

def AliasError.message (e : AliasError) : String := "invalid table prefix: " ++ e.rejected

namespace AliasMap

def empty : AliasMap := ⟨SortedMap.empty⟩

/-- The checked form of an alias. -/
def readAlias (text : String) : Except AliasError (Option Identifier) :=
  if text = "" then .ok none
  else match Identifier.ofString? text with
    | some i => .ok (some i)
    | none => .error ⟨text⟩

/-- Sets the alias of a field. -/
def set (m : AliasMap) (field text : String) : Except AliasError AliasMap :=
  (readAlias text).map fun a ↦ ⟨m.aliases.insert field a⟩

/-- The map built by setting the pairs in order; the first bad alias is the error. -/
def ofPairs (pairs : List (String × String)) : Except AliasError AliasMap :=
  pairs.foldlM (fun m p ↦ m.set p.1 p.2) empty

/-- The text that a member of a map document gives as alias. -/
def aliasText? (member : String × Json) : Option (String × String) :=
  match member.2 with
  | .string s => some (member.1, s)
  | _ => none

/-- Reads a map from an object of strings; one bad alias rejects the whole document. -/
def ofJson? : Json → Option AliasMap
  | .object members => (members.mapM aliasText?).bind fun pairs ↦ (ofPairs pairs).toOption
  | _ => none

/-- The alias to write before a field, if it has one that is not empty. -/
def alias? (m : AliasMap) (field : String) : Option Identifier := (m.aliases.get? field).join

/-- The column of a field. -/
def qualify (m : AliasMap) (field : String) : String :=
  match m.alias? field with
  | some a => a.text ++ "." ++ field
  | none => field

/-- Fields and aliases in the byte order of the fields, the empty alias as an empty text. -/
def toPairs (m : AliasMap) : List (String × String) :=
  m.aliases.entries.map fun e ↦ (e.1, e.2.elim "" Identifier.text)

end AliasMap

end RowFilter
