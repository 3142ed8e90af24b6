import RowFilter.Proofs.Sql.Lexeme

/-!
Other columns and other numbers in the text of a tail. Exchanging them in the structure exchanges
them in the lexemes and leaves all words, brackets and blanks where they are
(`Tail.lexemes_rewrite`). Aliases only exchange columns, and another first number only exchanges
numbers.
-/

set_option autoImplicit false

namespace RowFilter.Sql

section Rewriting

variable (g : Column → Column) (k : Nat → Nat)

/-- The lexeme with another column or another number, if it is one. -/
def Lexeme.rewrite : Lexeme → Lexeme
  | .word s => .word s
  | .placeholder n => .placeholder (k n)
  | .column c => .column (g c)
  | .blank => .blank
  | .comma => .comma
  | .opening => .opening
  | .closing => .closing

theorem Lexeme.rewrite_rewrite (g' : Column → Column) (k' : Nat → Nat) (l : Lexeme) :
    (l.rewrite g k).rewrite g' k' = l.rewrite (fun c ↦ g' (g c)) (fun n ↦ k' (k n)) := by
  cases l <;> rfl

theorem map_intercalate {α β : Type} (f : α → β) (sep : List α) (parts : List (List α)) :
    (sep.intercalate parts).map f = (sep.map f).intercalate (parts.map (List.map f)) := by
  induction parts with
  | nil => rfl
  | cons part rest ih =>
    cases rest with
    | nil => simp only [List.intercalate_singleton, List.map_cons, List.map_nil]
    | cons next rest =>
      simp only [List.map_cons] at ih
      simp only [List.intercalate_cons_cons, List.map_cons, List.map_append, ih]

theorem Term.lexemes_rewrite (t : Term Nat) :
    (t.rewrite g k).lexemes = t.lexemes.map (Lexeme.rewrite g k) := by
  obtain ⟨column, test⟩ := t
  cases test <;> rfl

theorem Conjunct.lexemes_rewrite (c : Conjunct Nat) :
    (c.rewrite g k).lexemes = c.lexemes.map (Lexeme.rewrite g k) := by
  cases c with
  | single t => exact t.lexemes_rewrite g k
  | group ts =>
    simp only [rewrite, lexemes, List.map_append, List.map_cons, List.map_nil, List.map_map,
      map_intercalate, Function.comp_def, Term.lexemes_rewrite, Lexeme.rewrite]

namespace Tail

theorem whereLexemes_map_rewrite (cs : List (Conjunct Nat)) :
    whereLexemes (cs.map (Conjunct.rewrite g k)) =
      (whereLexemes cs).map (Lexeme.rewrite g k) := by
  cases cs with
  | nil => rfl
  | cons c rest =>
    simp only [whereLexemes, List.map_append, List.map_cons, List.map_nil, List.map_map,
      map_intercalate, Function.comp_def, Conjunct.lexemes_rewrite, Lexeme.rewrite]

theorem orderLexemes_map (terms : List (Column × Direction)) :
    orderLexemes (terms.map fun term ↦ (g term.1, term.2)) =
      (orderLexemes terms).map (Lexeme.rewrite g k) := by
  cases terms with
  | nil => rfl
  | cons u rest =>
    simp only [orderLexemes, sortLexemes, List.map_append, List.map_cons, List.map_nil,
      List.map_map, map_intercalate, Function.comp_def, Lexeme.rewrite]

theorem lexemes_rewrite (t : Tail Nat) :
    (t.rewrite g k).lexemes = t.lexemes.map (Lexeme.rewrite g k) := by
  have hskip : skipLexemes (t.skip.map k) = (skipLexemes t.skip).map (Lexeme.rewrite g k) := by
    cases t.skip <;> rfl
  simp only [lexemes, rewrite, whereLexemes_map_rewrite, orderLexemes_map g k, hskip,
    List.map_append]
  rfl

end Tail

end Rewriting

end RowFilter.Sql
