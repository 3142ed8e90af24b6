import RowFilter.Proofs.Json.NumberValue

/-!
What a JSON Schema document says of a value, for the keywords `type`, `nullable`, `anyOf`,
`properties`, `additionalProperties`, `items`, `maxProperties`, `minimum` and `enum`. A document is
an object of keywords, all of which are to hold, or a truth value. A keyword that is about one kind
of value says nothing of the other kinds, and an unknown keyword says nothing at all.
-/

set_option autoImplicit false

namespace RowFilter.JsonSchema

/-! ### Equal values -/

mutual

/-- Equality of values: numbers by what they denote, objects whatever the order of their members. -/
def sameValue : Json → Json → Bool
  | .scalar (.number a), .scalar (.number b) => a.toRat = b.toRat
  | .scalar s, .scalar t => s = t
  | .array xs, .array ys => sameItems xs ys
  | .object ms, .object ns => ms.length = ns.length && sameMembers ms ns
  | _, _ => false

def sameItems : List Json → List Json → Bool
  | [], [] => true
  | x :: xs, y :: ys => sameValue x y && sameItems xs ys
  | _, _ => false

/-- Every member of the first list has its like in the second. -/
def sameMembers : List (String × Json) → List (String × Json) → Bool
  | [], _ => true
  | (name, v) :: ms, ns =>
    (match Assoc.get? name ns with
      | some w => sameValue v w
      | none => false) && sameMembers ms ns

end

/-! ### Keywords about a value as a whole -/

/-- Whether a value is of a named type. An integer is a number without a fractional part. -/
def isOfType (value : Json) (name : String) : Bool :=
  match value with
  | .null => name = "null"
  | .bool _ => name = "boolean"
  | .number n => name = "number" || name = "integer" && n.toRat.isInt
  | .string _ => name = "string"
  | .array _ => name = "array"
  | .object _ => name = "object"

/-- The argument of `type` is one name or a list of alternatives. -/
def allowsType (value : Json) : Json → Bool
  | .string name => isOfType value name
  | .array names => names.any fun
      | .string name => isOfType value name
      | _ => false
  | _ => false

/-- Whether null is admitted beside the types that are named. -/
def nullable (keywords : List (String × Json)) : Bool :=
  match Assoc.get? "nullable" keywords with
  | some (.bool b) => b
  | _ => false

/-- Whether `properties` has a schema for the name. -/
def declares (keywords : List (String × Json)) (name : String) : Bool :=
  match Assoc.get? "properties" keywords with
  | some (.object schemas) => (Assoc.get? name schemas).isSome
  | _ => false

def members : Json → List (String × Json)
  | .object ms => ms
  | _ => []

def items : Json → List Json
  | .array xs => xs
  | _ => []

/-- Whether a value is no number below the bound. -/
def atLeast (bound : Number) : Json → Bool
  | .number n => bound.toRat ≤ n.toRat
  | _ => true

/-! ### Documents -/

mutual

/-- Whether a value satisfies a schema document. -/
def satisfies (value : Json) : Json → Bool
  | .object keywords => satisfiesAll keywords value keywords
  | .bool b => b
  | _ => false
termination_by structural j => j

/-- Whether a value satisfies each keyword of a list, which stands in a document with all
`keywords`. -/
def satisfiesAll (keywords : List (String × Json)) (value : Json) : List (String × Json) → Bool
  | [] => true
  | (keyword, argument) :: rest =>
    (match keyword, argument with
      | "type", types => allowsType value types || nullable keywords && value.isNull
      | "anyOf", .array schemas => satisfiesAny value schemas
      | "properties", .object schemas => satisfiesNamed (members value) schemas
      | "additionalProperties", schema =>
        (members value).all fun m ↦ declares keywords m.1 || satisfies m.2 schema
      | "items", schema => (items value).all fun item ↦ satisfies item schema
      | "maxProperties", .int bound => (members value).length ≤ bound
      | "minimum", .number bound => atLeast bound value
      | "enum", .array values => values.any (sameValue value)
      | _, _ => true) && satisfiesAll keywords value rest
termination_by structural j => j

def satisfiesAny (value : Json) : List Json → Bool
  | [] => false
  | schema :: rest => satisfies value schema || satisfiesAny value rest
termination_by structural j => j

/-- Whether each member satisfies the schema of its name, if there is one. -/
def satisfiesNamed (ms : List (String × Json)) : List (String × Json) → Bool
  | [] => true
  | (name, schema) :: rest =>
    (ms.all fun m ↦ m.1 ≠ name || satisfies m.2 schema) && satisfiesNamed ms rest
termination_by structural j => j

end

/-! ### One keyword at a time -/

section Keywords

variable {keywords rest : List (String × Json)} {value : Json}

@[simp] theorem satisfies_object :
    satisfies value (.object keywords) = satisfiesAll keywords value keywords := rfl

@[simp] theorem satisfiesAll_nil : satisfiesAll keywords value [] = true := rfl

@[simp] theorem satisfiesAll_type (types : Json) :
    satisfiesAll keywords value (("type", types) :: rest) =
      ((allowsType value types || nullable keywords && value.isNull) &&
        satisfiesAll keywords value rest) := rfl

@[simp] theorem satisfiesAll_nullable (b : Bool) :
    satisfiesAll keywords value (("nullable", .bool b) :: rest) =
      satisfiesAll keywords value rest := rfl

@[simp] theorem satisfiesAll_anyOf (schemas : List Json) :
    satisfiesAll keywords value (("anyOf", .array schemas) :: rest) =
      (satisfiesAny value schemas && satisfiesAll keywords value rest) := rfl

@[simp] theorem satisfiesAll_properties (schemas : List (String × Json)) :
    satisfiesAll keywords value (("properties", .object schemas) :: rest) =
      (satisfiesNamed (members value) schemas && satisfiesAll keywords value rest) := rfl

@[simp] theorem satisfiesAll_additionalProperties (schema : Json) :
    satisfiesAll keywords value (("additionalProperties", schema) :: rest) =
      ((members value).all (fun m ↦ declares keywords m.1 || satisfies m.2 schema) &&
        satisfiesAll keywords value rest) := rfl

@[simp] theorem satisfiesAll_items (schema : Json) :
    satisfiesAll keywords value (("items", schema) :: rest) =
      ((items value).all (fun item ↦ satisfies item schema) &&
        satisfiesAll keywords value rest) := rfl

@[simp] theorem satisfiesAll_maxProperties (bound : Int) :
    satisfiesAll keywords value (("maxProperties", .int bound) :: rest) =
      (decide ((members value).length ≤ bound) && satisfiesAll keywords value rest) := rfl

@[simp] theorem satisfiesAll_minimum (bound : Int) :
    satisfiesAll keywords value (("minimum", .int bound) :: rest) =
      (atLeast (.int bound) value && satisfiesAll keywords value rest) := rfl

@[simp] theorem satisfiesAll_enum (values : List Json) :
    satisfiesAll keywords value (("enum", .array values) :: rest) =
      (values.any (sameValue value) && satisfiesAll keywords value rest) := rfl

@[simp] theorem satisfiesAll_default (n : Int) :
    satisfiesAll keywords value (("default", .int n) :: rest) =
      satisfiesAll keywords value rest := rfl

end Keywords

end RowFilter.JsonSchema
