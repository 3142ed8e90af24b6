import RowFilter.AliasMap
import RowFilter.Sql.Template

/-!
The text of numbered clauses. Every piece of text is a fixed word, a placeholder or a column, and
how a field becomes a column is a parameter. Groups come before all other predicates.
-/

set_option autoImplicit false

namespace RowFilter.Sql

/-- How fields are written as columns. -/
abbrev Columns := Identifier → String

/-- Bare columns without a map, and qualified ones with it. -/
def columns (aliases : Option AliasMap) : Columns := fun field ↦
  match aliases with
  | none => field.text
  | some m => m.qualify field.text

def placeholder (n : Nat) : String := "$" ++ toString n

/-- What stands behind the column. -/
def Test.text : Test Nat → String
  | .isNull => "IS NULL"
  | .isNotNull => "IS NOT NULL"
  | .equals n => "= " ++ placeholder n
  | .compare op n => op.sign ++ " " ++ placeholder n

def Predicate.text (column : Columns) (p : Predicate Nat) : String :=
  column p.field ++ " " ++ p.test.text

/-- A group in brackets, of which one part is to hold. Without parts there is none. -/
def bracketed : List String → List String
  | [] => []
  | parts => ["(" ++ String.intercalate " OR " parts ++ ")"]

theorem bracketed_cons (part : String) (rest : List String) :
    bracketed (part :: rest) = ["(" ++ String.intercalate " OR " (part :: rest) ++ ")"] := rfl

/-- The conjuncts that a clause adds: one for each predicate that must hold, and one in brackets for
a group, unless the group is empty. -/
def Clause.conjuncts (column : Columns) : Clause Nat → List String
  | .all ps => ps.map (Predicate.text column)
  | .any ps => bracketed (ps.map (Predicate.text column))

def Clause.isGroup {α : Type} : Clause α → Bool
  | .any _ => true
  | .all _ => false

/-- All conjuncts, those of the groups first. -/
def conjuncts (column : Columns) (clauses : List (Clause Nat)) : List String :=
  (clauses.filter Clause.isGroup).flatMap (Clause.conjuncts column) ++
    (clauses.filter fun c ↦ !c.isGroup).flatMap (Clause.conjuncts column)

/-- All conjuncts as one condition, absent when nothing is asked. -/
def conditionText : List String → Option String
  | [] => none
  | cs => some ("WHERE " ++ String.intercalate " AND " cs)

theorem conditionText_cons (c : String) (rest : List String) :
    conditionText (c :: rest) = some ("WHERE " ++ String.intercalate " AND " (c :: rest)) := rfl

/-- The condition on rows. -/
def whereText (column : Columns) (clauses : List (Clause Nat)) : Option String :=
  conditionText (conjuncts column clauses)

def directionText : Direction → String
  | .asc => "ASC"
  | .desc => "DESC"

def sortTermText (column : Columns) (t : SortTerm) : String :=
  column t.field ++ " " ++ directionText t.direction

/-- The order of rows, absent when there is none. -/
def orderText (column : Columns) : List SortTerm → Option String
  | [] => none
  | terms => some ("ORDER BY " ++ String.intercalate ", " (terms.map (sortTermText column)))

def limitText (n : Nat) : String := "LIMIT " ++ placeholder n

def skipText (n : Nat) : String := "OFFSET " ++ placeholder n

/-- The sections of a numbered template in the order of a statement. -/
def Template.sections (column : Columns) (t : Template Nat) : List String :=
  (whereText column t.clauses).toList ++ (orderText column t.sort).toList ++
    limitText t.limit :: (t.skip.map skipText).toList

end RowFilter.Sql
