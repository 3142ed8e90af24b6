import RowFilter.Json.Writer
import RowFilter.QueryString.Path

/-!
The tree that grows while parameters are read one after another. A node starts as what the first
path through it needs: a leaf, numbered slots or named members. Later paths may turn a leaf into
slots, and slots into members, where an index becomes its own text as a name.
-/

set_option autoImplicit false

namespace RowFilter.QueryString

/-- Slots stand in ascending order of their indices, members in order of arrival. -/
inductive Node where
  | leaf (value : Scalar)
  | slots (items : List (Nat × Node))
  | members (items : List (String × Node))

/-- The name that a value gives to a member: a string itself, any other scalar its text. -/
def memberName : Scalar → String
  | .string s => s
  | s => s.text

/-- The first index behind all slots. -/
def nextIndex (items : List (Nat × Node)) : Nat :=
  match items.getLast? with
  | some (i, _) => i + 1
  | none => 0

/-- Slots under the texts of their indices. -/
def namedSlots (items : List (Nat × Node)) : List (String × Node) :=
  items.map fun e ↦ (toString e.1, e.2)

namespace Node

/-- The node of a path that nothing has been stored under: a chain of containers with one child
each, down to the value. -/
def fresh (value : Scalar) : List Step → Node
  | [] => .leaf value
  | .key name :: rest => .members [(name, fresh value rest)]
  | .index i :: rest => .slots [(i, fresh value rest)]
  | .append :: rest => .slots [(0, fresh value rest)]

/-- A value at a node that is there already: beside a leaf in a list of both, behind the slots of a
list, and as the name of a member among members. -/
def add (value : Scalar) : Node → Node
  | .leaf old => .slots [(0, .leaf old), (1, .leaf value)]
  | .slots items => .slots (items ++ [(nextIndex items, .leaf value)])
  | .members items => .members (Assoc.put (memberName value) (.leaf (.bool true)) items)

/-- Changes the slot that a step leads to. A key turns the slots into members first. -/
def alterSlots (f : Option Node → Node) (items : List (Nat × Node)) : Step → Node
  | .key name => .members (Assoc.alter name f (namedSlots items))
  | .index i => .slots (Assoc.alterSorted i f items)
  | .append => .slots (items ++ [(nextIndex items, f none)])

/-- Changes the member that a step leads to. An append leads to the member named by the number of
members. -/
def alterMembers (f : Option Node → Node) (items : List (String × Node)) : Step → Node
  | .key name => .members (Assoc.alter name f items)
  | .index i => .members (Assoc.alter (toString i) f items)
  | .append => .members (Assoc.alter (toString items.length) f items)

/-- Applies a change to the child that a step leads to, where the change is also told that there is
no such child yet. A leaf becomes the first of a list. -/
def alterChild (f : Option Node → Node) (step : Step) : Node → Node
  | .leaf old => alterSlots f [(0, .leaf old)] step
  | .slots items => alterSlots f items step
  | .members items => alterMembers f items step

/-- Stores a value under a path. -/
def insert (value : Scalar) : List Step → Node → Node
  | [], node => node.add value
  | step :: rest, node =>
    node.alterChild (fun child ↦ child.elim (fresh value rest) (insert value rest)) step

mutual

/-- The decoded value: lists without their gaps, objects in order of arrival. -/
def toJson : Node → Json
  | .leaf value => .scalar value
  | .slots items => .array (slotValues items)
  | .members items => .object (memberValues items)

def slotValues : List (Nat × Node) → List Json
  | [] => []
  | (_, node) :: rest => node.toJson :: slotValues rest

def memberValues : List (String × Node) → List (String × Json)
  | [] => []
  | (name, node) :: rest => (name, node.toJson) :: memberValues rest

end

end Node

/-- The members of the decoded object while it grows. -/
abbrev Tree := List (String × Node)

namespace Tree

/-- Stores a value under the path of a parameter. -/
def insert (tree : Tree) (path : Path) (value : Scalar) : Tree :=
  Assoc.alter path.root
    (fun child ↦ child.elim (Node.fresh value path.steps) (Node.insert value path.steps)) tree

def toJson (tree : Tree) : Json := .object (Node.memberValues tree)

end Tree

end RowFilter.QueryString
