import RowFilter.Sql.Text

/-!
Single steps of compiling. A fragment holds pieces of text, the values they bind and the number from
which the next step has to count on. Each value that is bound takes the next number, and a step that
follows another one starts from the number that is handed over to it, so steps can be run one after
another from any number.
-/

set_option autoImplicit false

namespace RowFilter.Sql

structure Fragment where
  pieces : List String
  values : List Scalar
  next : Nat
deriving DecidableEq

namespace Fragment

/-- Nothing yet, with the first number to take. -/
def startingAt (n : Nat) : Fragment := ⟨[], [], n⟩

/-- Binds a value, which takes the next number. -/
def bind (f : Fragment) (value : Scalar) : Nat × Fragment :=
  (f.next, ⟨f.pieces, f.values ++ [value], f.next + 1⟩)

def write (f : Fragment) (piece : String) : Fragment := ⟨f.pieces ++ [piece], f.values, f.next⟩

/-- The first fragment and behind it one that was started from its number. -/
def append (f g : Fragment) : Fragment := ⟨f.pieces ++ g.pieces, f.values ++ g.values, g.next⟩

/-- One step after another, each from the number on that the one before it hands over. -/
def inOrder {α : Type} (step : Nat → α → Fragment) (start : Nat) : List α → Fragment
  | [] => startingAt start
  | a :: rest =>
    let first := step start a
    first.append (inOrder step first.next rest)

/-- Binds the operand of a test, if it has one. -/
def bindOperand (f : Fragment) : Test Scalar → Test Nat × Fragment
  | .isNull => (.isNull, f)
  | .isNotNull => (.isNotNull, f)
  | .equals s =>
    let (n, f) := f.bind s
    (.equals n, f)
  | .compare op s =>
    let (n, f) := f.bind s
    (.compare op n, f)

def ofPredicate (column : Columns) (start : Nat) (p : Predicate Scalar) : Fragment :=
  let (test, f) := (startingAt start).bindOperand p.test
  f.write (Predicate.text column ⟨p.field, test⟩)

/-- The predicates for one field. -/
def ofCondition (column : Columns) (start : Nat) (c : FieldCondition) : Fragment :=
  inOrder (ofPredicate column) start (Predicate.ofFieldCondition c)

/-- The bracketed group of all predicates of the alternatives. -/
def ofAlternatives (column : Columns) (start : Nat) (cs : List FieldCondition) : Fragment :=
  let group := inOrder (ofCondition column) start cs
  ⟨bracketed group.pieces, group.values, group.next⟩

end Fragment

/-- The conjuncts of entries, with the groups on their own. The values are in the order of the
entries all the same. -/
structure Collected where
  groups : List String
  singles : List String
  values : List Scalar
  next : Nat

def Collected.ofEntries (column : Columns) (start : Nat) : List Entry → Collected
  | [] => ⟨[], [], [], start⟩
  | .anyOf cs :: rest =>
    let first := Fragment.ofAlternatives column start cs
    let others := ofEntries column first.next rest
    ⟨first.pieces ++ others.groups, others.singles, first.values ++ others.values, others.next⟩
  | .field c :: rest =>
    let first := Fragment.ofCondition column start c
    let others := ofEntries column first.next rest
    ⟨others.groups, first.pieces ++ others.singles, first.values ++ others.values, others.next⟩

namespace Fragment

/-- The condition on rows that the entries ask for. -/
def ofEntries (column : Columns) (start : Nat) (entries : List Entry) : Fragment :=
  let all := Collected.ofEntries column start entries
  ⟨(conditionText (all.groups ++ all.singles)).toList, all.values, all.next⟩

/-- The bounds of the page. -/
def ofPagination (start : Nat) (p : Pagination) : Fragment :=
  let (limit, f) := (startingAt start).bind (Template.limitOf p)
  let f := f.write (limitText limit)
  match p.skip with
  | none => f
  | some s =>
    let (skip, f) := f.bind s
    f.write (skipText skip)

end Fragment

end RowFilter.Sql
