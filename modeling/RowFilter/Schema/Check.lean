import RowFilter.Filter.OfJson
import RowFilter.Json.Pointer
import RowFilter.Schema.Basic

/-!
Checking a filter document against a schema. Every violation is reported, in document order, each
with the pointer to the value that it is about.
-/

set_option autoImplicit false

namespace RowFilter

/-- What can be wrong with a value. -/
inductive Violation where
  | notObject
  | notArray
  | severalMembers
  | unknownMember
  | neitherTypeNorComparison (type : FieldType)
  | notOfType (type : FieldType)
  | notInteger
  | negative
  | notAllowed
deriving DecidableEq, Repr

def Violation.message : Violation → String
  | .notObject => "must be object"
  | .notArray => "must be array"
  | .severalMembers => "must NOT have more than 1 properties"
  | .unknownMember => "must NOT have additional properties"
  | .neitherTypeNorComparison type => "must be " ++ type.display ++ " or a comparison object"
  | .notOfType type => "must be " ++ type.display
  | .notInteger => "must be integer"
  | .negative => "must be >= 0"
  | .notAllowed => "must be equal to one of the allowed values"

structure Issue where
  pointer : Pointer
  violation : Violation
deriving DecidableEq, Repr

namespace Issue

/-- The issue seen from the container that holds the value under the reference. -/
def under (reference : String) (i : Issue) : Issue := { i with pointer := reference :: i.pointer }

/-- The message behind the pointer, or alone when it is about the whole document. -/
def display (i : Issue) : String :=
  if i.pointer.isEmpty then i.violation.message
  else i.pointer.text ++ " " ++ i.violation.message

end Issue

namespace Schema

/-- An issue of the value itself. -/
def here (v : Violation) : List Issue := [⟨[], v⟩]

/-- The issues of a container's parts, each seen from the container. -/
def issuesOfMembers (check : String → Json → List Issue) (members : List (String × Json)) :
    List Issue :=
  members.flatMap fun m ↦ (check m.1 m.2).map (Issue.under m.1)

/-- An operand of a comparison is null or of the type of the field. -/
def checkOperand (type : FieldType) (directive : String) (operand : Json) : List Issue :=
  if (Operator.ofDirective? directive).isNone then here .unknownMember
  else if operand.isNull || type.accepts operand then []
  else here (.notOfType type)

/-- The value of a field is of its type, or an object of comparisons. -/
def checkField (type : FieldType) (value : Json) : List Issue :=
  if type.accepts value then []
  else match value with
    | .object directives => issuesOfMembers (checkOperand type) directives
    | _ => here (.neitherTypeNorComparison type)

/-- A member is to be a declared field. -/
def checkDeclared (s : Schema) (name : String) (value : Json) : List Issue :=
  match s.type? name with
  | some type => checkField type value
  | none => here .unknownMember

/-- An alternative has at most one member, and every member is checked all the same. -/
def checkAlternative (s : Schema) : Json → List Issue
  | .object members =>
    (if members.length > 1 then here .severalMembers else []) ++
      issuesOfMembers s.checkDeclared members
  | _ => here .notObject

/-- The issues of alternatives, of which the first has the given place. -/
def checkAlternatives (s : Schema) (index : Nat) : List Json → List Issue
  | [] => []
  | item :: rest =>
    (s.checkAlternative item).map (Issue.under (toString index)) ++
      checkAlternatives s (index + 1) rest

def checkDisjunction (s : Schema) : Json → List Issue
  | .array items => s.checkAlternatives 0 items
  | _ => here .notArray

/-- A bound of the page is null or a whole number from zero on. -/
def checkBound (value : Json) : List Issue :=
  if value.isNull then []
  else match value.toInt? with
    | none => here .notInteger
    | some n => if n < 0 then here .negative else []

/-- A sort direction is one or minus one. -/
def checkDirection (value : Json) : List Issue :=
  match value.toInt? with
  | none => here .notInteger
  | some n => if n = 1 ∨ n = -1 then [] else here .notAllowed

def checkSort : Json → List Issue
  | .null => []
  | .object members => issuesOfMembers (fun _ ↦ checkDirection) members
  | _ => here .notObject

/-- The issues of one member of a filter. -/
def checkMember (s : Schema) (key : String) (value : Json) : List Issue :=
  if key = MemberKind.disjunctionKey then s.checkDisjunction value
  else if key = MemberKind.limitKey ∨ key = MemberKind.skipKey then checkBound value
  else if key = MemberKind.sortKey then checkSort value
  else s.checkDeclared key value

/-- All issues of a filter document. -/
def check (s : Schema) : Json → List Issue
  | .object members => issuesOfMembers s.checkMember members
  | _ => here .notObject

/-- A document without issues. -/
def accepts (s : Schema) (document : Json) : Bool := (s.check document).isEmpty

end Schema

end RowFilter
