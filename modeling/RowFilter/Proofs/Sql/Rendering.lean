import RowFilter.Proofs.Sql.Lexeme
import RowFilter.Sql.Query

/-!
The text of a compiled filter. `Filter.toList_sql_tail` says that a filter compiled onto an empty
base is the text of the lexemes of its tail, and `Filter.sql_compile` that any other base only
stands in front of that text.
-/

set_option autoImplicit false

namespace RowFilter

namespace Sql

/-! ### The text of the sections -/

section Text

variable (aliases : Option AliasMap)

theorem textOf_testLexemes (t : Test Nat) : textOf t.lexemes = t.text.toList := by
  cases t with
  | isNull => rfl
  | isNotNull => rfl
  | equals n =>
    simp only [Test.lexemes, Test.text, textOf_cons, textOf_nil, Lexeme.text, String.toList_append,
      List.append_nil]
    rfl
  | compare op n =>
    simp only [Test.lexemes, Test.text, textOf_cons, textOf_nil, Lexeme.text, String.toList_append,
      List.append_nil, List.append_assoc]
    rfl

theorem textOf_termLexemes (p : Predicate Nat) :
    textOf (Term.ofPredicate (Column.of aliases) p).lexemes =
      (p.text (columns aliases)).toList := by
  simp only [Term.lexemes, Term.ofPredicate, Predicate.text, textOf_cons, Lexeme.text,
    textOf_testLexemes, Column.text_of, String.toList_append, List.append_assoc]
  rfl

/-- The lexemes of a list of parts have the text of the joined parts. -/
theorem textOf_intercalate_map {ι : Type} (sep : List Lexeme) (joint : String)
    (hsep : textOf sep = joint.toList) {lexemes : ι → List Lexeme} {write : ι → String}
    {parts : List ι} (h : ∀ p ∈ parts, textOf (lexemes p) = (write p).toList) :
    textOf (sep.intercalate (parts.map lexemes)) =
      (String.intercalate joint (parts.map write)).toList := by
  rw [textOf_intercalate, hsep, String.toList_intercalate, List.map_map, List.map_map]
  exact congrArg _ (List.map_congr_left h)

theorem textOf_conjunctLexemes (c : Clause Nat) :
    (Conjunct.ofClause (Column.of aliases) c).map (fun k ↦ textOf k.lexemes) =
      (c.conjuncts (columns aliases)).map String.toList := by
  cases c with
  | all ps =>
    simp only [Conjunct.ofClause, Clause.conjuncts, List.map_map]
    exact List.map_congr_left fun p _ ↦ textOf_termLexemes aliases p
  | any ps =>
    cases ps with
    | nil => rfl
    | cons p rest =>
      have hterms := textOf_intercalate_map [.blank, .word "OR", .blank] " OR " rfl
        fun q (_ : q ∈ p :: rest) ↦ textOf_termLexemes aliases q
      rw [← Function.comp_def Term.lexemes, ← List.map_map] at hterms
      rw [Clause.conjuncts, List.map_cons, bracketed_cons, ← List.map_cons]
      simp only [Conjunct.ofClause, Conjunct.lexemes, List.map_singleton, textOf_cons,
        textOf_append, hterms, String.toList_append]
      rfl

/-- The conjuncts of the text, in the order of the text. -/
theorem textOf_conjuncts (cs : List (Clause Nat)) :
    (Conjunct.ofClauses (Column.of aliases) cs).map (fun k ↦ textOf k.lexemes) =
      (conjuncts (columns aliases) cs).map String.toList := by
  simp only [Conjunct.ofClauses, conjuncts, List.map_append, List.map_flatMap,
    textOf_conjunctLexemes]

/-- A section with the blank behind it, if there is one. -/
def sectionText (words? : Option String) : List Char :=
  words?.elim [] fun s ↦ s.toList ++ [' ']

theorem textOf_whereLexemes (cs : List (Clause Nat)) :
    textOf (Tail.whereLexemes (Conjunct.ofClauses (Column.of aliases) cs)) =
      sectionText (whereText (columns aliases) cs) := by
  have hconjuncts := textOf_conjuncts aliases cs
  unfold whereText
  cases hparts : conjuncts (columns aliases) cs with
  | nil =>
    rw [hparts, List.map_nil, List.map_eq_nil_iff] at hconjuncts
    rw [hconjuncts]
    rfl
  | cons part parts =>
    rw [hparts] at hconjuncts
    rw [conditionText_cons]
    cases hks : Conjunct.ofClauses (Column.of aliases) cs with
    | nil =>
      rw [hks] at hconjuncts
      cases hconjuncts
    | cons k ks =>
      rw [hks] at hconjuncts
      simp only [Tail.whereLexemes, textOf_cons, textOf_append, textOf_intercalate, List.map_map,
        Function.comp_def, hconjuncts, sectionText, Option.elim_some, String.toList_append,
        String.toList_intercalate, List.append_assoc]
      rfl

theorem textOf_orderLexemes (terms : List SortTerm) :
    textOf (Tail.orderLexemes (terms.map fun t ↦ (Column.of aliases t.field, t.direction))) =
      sectionText (orderText (columns aliases) terms) := by
  cases terms with
  | nil => rfl
  | cons t rest =>
    have hterm (u : SortTerm) :
        textOf (sortLexemes (Column.of aliases u.field, u.direction)) =
          (sortTermText (columns aliases) u).toList := by
      simp only [sortLexemes, sortTermText, textOf_cons, textOf_nil, Lexeme.text, Column.text_of,
        String.toList_append, List.append_nil, List.append_assoc]
      rfl
    have hterms := textOf_intercalate_map [.comma] ", " rfl
      fun u (_ : u ∈ t :: rest) ↦ hterm u
    rw [← Function.comp_def sortLexemes, ← List.map_map] at hterms
    simp only [List.map_cons, Tail.orderLexemes] at hterms ⊢
    simp only [textOf_cons, textOf_append, hterms, orderText, sectionText, Option.elim_some,
      String.toList_append, List.map_cons, List.append_assoc]
    rfl

theorem toList_intercalate_section (words? : Option String) {rest : List String}
    (hrest : rest ≠ []) : (String.intercalate " " (words?.toList ++ rest)).toList =
      sectionText words? ++ (String.intercalate " " rest).toList := by
  cases words? with
  | none => rfl
  | some s =>
    rw [Option.toList_some, List.singleton_append, String.intercalate_cons_of_ne_nil hrest,
      String.toList_append, String.toList_append]
    rfl

/-- The sections with single blanks between them are the text of the tail. -/
theorem toList_intercalate_sections (t : Template Nat) :
    (String.intercalate " " (t.sections (columns aliases))).toList =
      (Tail.ofTemplate (Column.of aliases) t).text := by
  have hpage : (String.intercalate " " (limitText t.limit :: (t.skip.map skipText).toList)).toList =
      textOf (Tail.limitLexemes t.limit ++ Tail.skipLexemes t.skip) := by
    cases t.skip with
    | none =>
      simp [limitText, Tail.limitLexemes, Tail.skipLexemes, Lexeme.text]
    | some n =>
      simp [limitText, skipText, Tail.limitLexemes, Tail.skipLexemes, Lexeme.text]
  rw [Template.sections, List.append_assoc, toList_intercalate_section _ (by simp),
    toList_intercalate_section _ (by simp), hpage, ← textOf_orderLexemes]
  rw [← textOf_whereLexemes]
  simp only [Tail.text, Tail.lexemes, textOf_append, List.append_assoc]
  rfl

end Text

/-! ### The text of a compiled filter -/

/-- What stands between a base statement and its tail. -/
def gap (base : String) : String := if Text.trim base = "" then "" else " "

theorem attach_eq (base : String) {sections : List String} (hne : sections ≠ []) :
    attach base sections = Text.trim base ++ gap base ++ String.intercalate " " sections := by
  unfold attach gap
  dsimp only
  split
  · rename_i hempty
    rw [hempty, String.empty_append, String.empty_append]
  · rw [String.intercalate_cons_of_ne_nil hne]

end Sql

namespace Filter

/-- The numbered sections that a filter adds to a base statement. -/
def tail (f : Filter) (aliases : Option AliasMap) : Sql.Tail Nat :=
  .ofTemplate (Column.of aliases) ((Sql.Template.ofFilter f).numbered Sql.firstPlaceholder)

theorem sql_compile_eq (f : Filter) (base : String) (aliases : Option AliasMap) :
    (f.compile base aliases).sql =
      Text.trim base ++ Sql.gap base ++ String.ofList (f.tail aliases).text := by
  rw [tail, ← Sql.toList_intercalate_sections, String.ofList_toList, ← Sql.attach_eq]
  · rfl
  · simp [Sql.Template.sections]

/-- On an empty base a filter compiles to the text of its tail. -/
theorem toList_sql_tail (f : Filter) (aliases : Option AliasMap) :
    (f.compile "" aliases).sql.toList = (f.tail aliases).text := by
  have hblank : Text.trim "" ++ Sql.gap "" = "" := by decide
  rw [sql_compile_eq, hblank, String.empty_append, String.toList_ofList]

/-- The tail does not depend on the base, which only stands in front of it. -/
theorem sql_compile (f : Filter) (base : String) (aliases : Option AliasMap) :
    (f.compile base aliases).sql =
      Text.trim base ++ Sql.gap base ++ (f.compile "" aliases).sql := by
  rw [sql_compile_eq, ← toList_sql_tail, String.ofList_toList]

end Filter

end RowFilter
