import RowFilter.Proofs.Sql.Fragment
import RowFilter.Proofs.Sql.Rewriting
import RowFilter.Proofs.Sql.Rows

/-!
Single steps of compiling. A step writes pieces, each of which is one conjunct, the whole condition
on rows or a bound of the page. The pieces of a step are laid out from its first number on
(`Stage.laid`), and with each number replaced by its value they are what the step asks for
(`Stage.map_parts`).
-/

set_option autoImplicit false

namespace RowFilter.Sql

variable {α β : Type}

/-! ### Pieces -/

/-- What one piece of text is written from. -/
inductive Piece (α : Type) where
  | conjunct (c : Conjunct α)
  | condition (cs : List (Conjunct α))
  | bound (word : String) (a : α)

namespace Piece

def map (f : α → β) : Piece α → Piece β
  | .conjunct c => .conjunct (c.map f)
  | .condition cs => .condition (cs.map (Conjunct.map f))
  | .bound word a => .bound word (f a)

/-- The condition on rows, unless nothing is asked. -/
def ofConjuncts : List (Conjunct α) → List (Piece α)
  | [] => []
  | cs => [.condition cs]

def row : Piece Nat → List Lexeme
  | .conjunct c => c.lexemes
  | .condition cs => .word "WHERE" :: .blank ::
      [.blank, .word "AND", .blank].intercalate (cs.map Conjunct.lexemes)
  | .bound word n => [.word word, .blank, .placeholder n]

def text (p : Piece Nat) : String := String.ofList (textOf p.row)

theorem map_conjuncts (f : α → β) (cs : List (Conjunct α)) :
    (cs.map conjunct).map (map f) = (cs.map (Conjunct.map f)).map conjunct := by
  rw [List.map_map, List.map_map]
  rfl

theorem map_ofConjuncts (f : α → β) (cs : List (Conjunct α)) :
    (ofConjuncts cs).map (map f) = ofConjuncts (cs.map (Conjunct.map f)) := by
  cases cs <;> rfl

/-- Other numbers in a piece are other numbers in its row. -/
theorem row_map (k : Nat → Nat) (p : Piece Nat) :
    (p.map k).row = p.row.map (Lexeme.rewrite id k) := by
  cases p with
  | conjunct c => rw [map, ← Conjunct.rewrite_id, row, Conjunct.lexemes_rewrite, row]
  | condition cs =>
    simp only [map, row, ← Conjunct.rewrite_id, List.map_cons, List.map_map, map_intercalate,
      Function.comp_def, Conjunct.lexemes_rewrite]
    rfl
  | bound word n => rfl

theorem rows_ofConjuncts (cs : List (Conjunct Nat)) :
    (ofConjuncts cs).map row =
      joined "AND" [.word "WHERE", .blank] [] (cs.map Conjunct.lexemes) := by
  cases cs with
  | nil => rfl
  | cons c rest =>
    rw [List.map_cons, joined_cons, List.append_nil]
    rfl

theorem textOf_ofConjuncts (aliases : Option AliasMap) (cs : List (Clause Nat)) :
    (ofConjuncts (Conjunct.ofClauses (Column.of aliases) cs)).map (fun p ↦ textOf p.row) =
      (whereText (columns aliases) cs).toList.map String.toList := by
  have htext := textOf_whereLexemes aliases cs
  cases hks : Conjunct.ofClauses (Column.of aliases) cs with
  | nil =>
    cases hwords : whereText (columns aliases) cs with
    | none => rfl
    | some words => simp [hks, hwords, Tail.whereLexemes, sectionText] at htext
  | cons k rest =>
    have hrow : Tail.whereLexemes (k :: rest) = (condition (k :: rest)).row ++ [.blank] := rfl
    rw [hks, hrow, textOf_append] at htext
    cases hwords : whereText (columns aliases) cs with
    | none => simp [hwords, sectionText, Lexeme.text] at htext
    | some words =>
      rw [hwords] at htext
      exact congrArg ([·]) (List.append_cancel_right htext)

end Piece

/-! ### The numbers in clauses -/

section Laid

variable (aliases : Option AliasMap) (n : Nat)

theorem laid_predicate (p : Predicate α) :
    Laid n ((p.labelled (columns aliases)).map Prod.fst)
      [(Term.ofPredicate (Column.of aliases) (p.numbered n)).lexemes] where
  phrase := List.forall_mem_singleton.mpr (Term.phrase_lexemes _)
  dollar := List.forall_mem_singleton.mpr fun l hl ↦
    eq_placeholder_of_dollar_mem (Term.admitted_lexemes (List.mem_singleton_self _) l hl)
  numbers := by
    rw [List.flatMap_singleton, Term.numbersOf_lexemes, List.length_map, p.length_labelled]
    exact .of_eq (Test.operands_numbered n p.test)
  labelled := fun _ _ hlabel ↦
    ⟨_, List.mem_singleton_self _, Term.labelledAt_lexemes (p.labelled_numbered n hlabel)⟩

theorem laid_predicates (ps : List (Predicate α)) :
    Laid n ((ps.flatMap (Predicate.labelled (columns aliases))).map Prod.fst)
      ((Predicate.numberedAll n ps).map fun p ↦
        (Term.ofPredicate (Column.of aliases) p).lexemes) := by
  induction ps generalizing n with
  | nil => exact .nil n
  | cons p rest ih =>
    rw [List.flatMap_cons, List.map_append]
    refine (laid_predicate aliases n p).append ?_
    rw [List.length_map, p.length_labelled]
    exact ih _

theorem laid_clause (c : Clause α) :
    Laid n ((c.labelled (columns aliases)).map Prod.fst)
      ((Conjunct.ofClause (Column.of aliases) (c.numbered n)).map Conjunct.lexemes) := by
  have hterms := laid_predicates aliases n c.predicates
  cases c with
  | all ps =>
    rw [Clause.numbered, Conjunct.ofClause, List.map_map]
    exact hterms
  | any ps =>
    have hgroup (qs : List (Predicate Nat)) :
        (Conjunct.ofClause (Column.of aliases) (.any qs)).map Conjunct.lexemes =
          joined "OR" [.opening] [.closing]
            (qs.map fun q ↦ (Term.ofPredicate (Column.of aliases) q).lexemes) := by
      cases qs with
      | nil => rfl
      | cons q rest =>
        simp only [Conjunct.ofClause, Conjunct.lexemes, joined, List.map_cons, List.map_nil,
          List.map_map]
        rfl
    rw [Clause.numbered, hgroup]
    exact hterms.joined (fun _ ↦ .bracketed) (by decide)

theorem laid_clauses (cs : List (Clause α)) :
    Laid n ((cs.flatMap (Clause.labelled (columns aliases))).map Prod.fst)
      (((Clause.numberedAll n cs).flatMap (Conjunct.ofClause (Column.of aliases))).map
        Conjunct.lexemes) := by
  induction cs generalizing n with
  | nil => exact .nil n
  | cons c rest ih =>
    rw [Clause.numberedAll, List.flatMap_cons, List.flatMap_cons, List.map_append, List.map_append]
    refine (laid_clause aliases n c).append ?_
    rw [List.length_map, c.length_labelled]
    exact ih _

/-- Moving the groups to the front leaves every number behind its label. -/
theorem laid_condition (cs : List (Clause α)) :
    Laid n ((cs.flatMap (Clause.labelled (columns aliases))).map Prod.fst)
      ((Piece.ofConjuncts (Conjunct.ofClauses (Column.of aliases)
        (Clause.numberedAll n cs))).map Piece.row) := by
  have hperm := Conjunct.ofClauses_perm (Column.of aliases) (Clause.numberedAll n cs)
  have hrows := (laid_clauses aliases n cs).perm (hperm.symm.map Conjunct.lexemes)
  rw [Piece.rows_ofConjuncts]
  refine hrows.joined (fun inner hinner ↦ ?_) (by decide)
  rw [List.append_nil]
  exact .spaced (.word (l := .word "WHERE") rfl) hinner

theorem laid_bound (word : String) (hword : '$' ∉ word.toList) :
    Laid n [word] [(Piece.bound word n).row] where
  phrase := List.forall_mem_singleton.mpr
    (.spaced (.word (l := .word word) rfl) (.word (l := .placeholder n) rfl))
  dollar := by simp [Piece.row, Lexeme.text, hword]
  numbers := .refl _
  labelled := fun k label hlabel ↦ by
    obtain ⟨hk, rfl⟩ := List.getElem?_eq_some_iff.mp hlabel
    obtain rfl : k = 0 := Nat.lt_one_iff.mp hk
    refine ⟨_, List.mem_singleton_self _, .word word, [.blank], rfl, ?_, List.infix_rfl⟩
    simp [Lexeme.text]

end Laid

/-! ### Steps -/

/-- A step of compiling, with what it compiles. -/
inductive Stage where
  | condition (c : FieldCondition)
  | group (alternatives : List FieldCondition)
  | entries (entries : List Entry)
  | page (p : Pagination)

namespace Stage

def run (column : Columns) (start : Nat) : Stage → Fragment
  | .condition c => .ofCondition column start c
  | .group cs => .ofAlternatives column start cs
  | .entries es => .ofEntries column start es
  | .page p => .ofPagination start p

/-- The comparisons of a step that bind a value, as column and operator, or its bounds, with their
values. -/
def bindings (column : Columns) : Stage → List (String × Scalar)
  | .condition c => c.bindings column
  | .group cs => cs.flatMap (FieldCondition.bindings column)
  | .entries es => es.flatMap (Entry.bindings column)
  | .page p => ("LIMIT", p.limit.getD (.int 10)) :: (p.skip.map fun s ↦ ("OFFSET", s)).toList

/-- What a step asks for, piece by piece. -/
def asked (column : Identifier → Column) : Stage → List (Piece Scalar)
  | .condition c => ((Entry.field c).singles column).map .conjunct
  | .group cs => ((Entry.anyOf cs).groups column).map .conjunct
  | .entries es =>
    Piece.ofConjuncts (es.flatMap (Entry.groups column) ++ es.flatMap (Entry.singles column))
  | .page p =>
    .bound "LIMIT" (p.limit.getD (.int 10)) :: (p.skip.map (Piece.bound "OFFSET")).toList

/-- The pieces of a step with their numbers. -/
def parts (column : Identifier → Column) (start : Nat) : Stage → List (Piece Nat)
  | .condition c =>
    (Conjunct.ofClause column ((Clause.ofCondition c).numbered start)).map .conjunct
  | .group cs =>
    (Conjunct.ofClause column ((Clause.ofAlternatives cs).numbered start)).map .conjunct
  | .entries es =>
    Piece.ofConjuncts
      (Conjunct.ofClauses column (Clause.numberedAll start (es.map Clause.ofEntry)))
  | .page p => .bound "LIMIT" start :: (p.skip.map fun _ ↦ .bound "OFFSET" (start + 1)).toList

variable (aliases : Option AliasMap)

theorem laid (start : Nat) (s : Stage) :
    Laid start ((s.bindings (columns aliases)).map Prod.fst)
      ((s.parts (Column.of aliases) start).map Piece.row) := by
  cases s with
  | condition c =>
    have h := laid_clause aliases start (Clause.ofEntry (.field c))
    rw [labelled_ofEntry] at h
    rwa [parts, List.map_map]
  | group cs =>
    have h := laid_clause aliases start (Clause.ofEntry (.anyOf cs))
    rw [labelled_ofEntry] at h
    rwa [parts, List.map_map]
  | entries es =>
    have h := laid_condition aliases start (es.map Clause.ofEntry)
    simp only [List.flatMap_map, labelled_ofEntry] at h
    exact h
  | page p =>
    obtain ⟨limit, skip, sort⟩ := p
    have hlimit := laid_bound start "LIMIT" (by decide)
    cases skip with
    | none => exact hlimit
    | some skip => exact hlimit.append (laid_bound (start + 1) "OFFSET" (by decide))

theorem parts_add (column : Identifier → Column) (d start : Nat) (s : Stage) :
    s.parts column (d + start) = (s.parts column start).map (Piece.map (d + ·)) := by
  have hclause (c : Clause Scalar) :
      (Conjunct.ofClause column (c.numbered (d + start))).map Piece.conjunct =
        ((Conjunct.ofClause column (c.numbered start)).map Piece.conjunct).map
          (Piece.map (d + ·)) := by
    rw [Clause.numbered_add, ← Conjunct.map_ofClause, Piece.map_conjuncts]
  cases s with
  | condition c => exact hclause _
  | group cs => exact hclause _
  | entries es =>
    rw [parts, parts, Clause.numberedAll_add, ← Conjunct.map_ofClauses, Piece.map_ofConjuncts]
  | page p =>
    obtain ⟨limit, skip, sort⟩ := p
    cases skip <;> rfl

theorem values_run (column : Columns) (start : Nat) (s : Stage) :
    (s.run column start).values = (s.bindings column).map Prod.snd := by
  have hentry (e : Entry) : (Clause.ofEntry e).operands = (e.bindings column).map Prod.snd := by
    rw [← labelled_ofEntry, Clause.map_snd_labelled]
  cases s with
  | condition c =>
    rw [run, Fragment.ofCondition_eq]
    exact hentry (.field c)
  | group cs =>
    rw [run, Fragment.ofAlternatives_eq]
    exact hentry (.anyOf cs)
  | entries es =>
    simp only [run, Fragment.ofEntries_eq, bindings, List.flatMap_map, hentry, List.map_flatMap]
  | page p =>
    obtain ⟨limit, skip, sort⟩ := p
    cases skip <;> rfl

/-- A step takes one number for each value that it binds. -/
theorem next_run (column : Columns) (start : Nat) (s : Stage) :
    (s.run column start).next = start + (s.run column start).values.length := by
  cases s with
  | condition c => rw [run, Fragment.ofCondition_eq]
  | group cs => rw [run, Fragment.ofAlternatives_eq]
  | entries es => rw [run, Fragment.ofEntries_eq]
  | page p => rw [run, Fragment.ofPagination_eq]

/-- Where numbers lead to the values of a step, its pieces lead to what it asks for. -/
theorem map_parts {column : Columns} {lookup : Nat → Option Scalar} {start : Nat} {s : Stage}
    (h : LeadsTo lookup start (s.run column start).values) (place : Identifier → Column) :
    (s.parts place start).map (Piece.map lookup) = (s.asked place).map (Piece.map some) := by
  have hclause {c : Clause Scalar} {cs : List (Conjunct Scalar)}
      (hcs : cs = Conjunct.ofClause place c) (h : LeadsTo lookup start c.operands) :
      ((Conjunct.ofClause place (c.numbered start)).map Piece.conjunct).map (Piece.map lookup) =
        (cs.map Piece.conjunct).map (Piece.map some) := by
    rw [Piece.map_conjuncts, Conjunct.map_ofClause, Clause.map_numbered h, hcs,
      Piece.map_conjuncts, Conjunct.map_ofClause]
  cases s with
  | condition c =>
    rw [run, Fragment.ofCondition_eq] at h
    exact hclause (Entry.singles_eq place (.field c)) h
  | group cs =>
    rw [run, Fragment.ofAlternatives_eq] at h
    exact hclause (Entry.groups_eq place (.anyOf cs)) h
  | entries es =>
    rw [run, Fragment.ofEntries_eq] at h
    rw [parts, Piece.map_ofConjuncts, Conjunct.map_ofClauses, Clause.map_numberedAll h,
      ← Conjunct.map_ofClauses, Entry.ofClauses_eq, ← Piece.map_ofConjuncts]
    rfl
  | page p =>
    obtain ⟨limit, skip, sort⟩ := p
    cases skip with
    | none => exact congrArg ([Piece.bound "LIMIT" ·]) (leadsTo_singleton.mp h)
    | some skip =>
      have hpair : LeadsTo lookup start ([limit.getD (.int 10)] ++ [skip]) := h
      obtain ⟨hlimit, hskip⟩ := leadsTo_append.mp hpair
      exact congrArg₂ ([Piece.bound "LIMIT" ·, .bound "OFFSET" ·]) (leadsTo_singleton.mp hlimit)
        (leadsTo_singleton.mp hskip)

theorem pieces_run (start : Nat) (s : Stage) :
    (s.run (columns aliases) start).pieces =
      (s.parts (Column.of aliases) start).map Piece.text := by
  have hpieces {ps : List (Piece Nat)} {pieces : List String}
      (h : ps.map (fun p ↦ textOf p.row) = pieces.map String.toList) :
      pieces = ps.map Piece.text := by
    calc pieces = (pieces.map String.toList).map String.ofList := by
          simp [List.map_map, Function.comp_def]
      _ = ps.map Piece.text := by
        rw [← h, List.map_map]
        rfl
  have hclause (c : Clause Nat) : c.conjuncts (columns aliases) =
      ((Conjunct.ofClause (Column.of aliases) c).map Piece.conjunct).map Piece.text := by
    refine hpieces ?_
    rw [← textOf_conjunctLexemes, List.map_map]
    rfl
  cases s with
  | condition c =>
    rw [run, Fragment.ofCondition_eq]
    exact hclause ((Clause.ofCondition c).numbered start)
  | group cs =>
    rw [run, Fragment.ofAlternatives_eq]
    exact hclause ((Clause.ofAlternatives cs).numbered start)
  | entries es =>
    rw [run, Fragment.ofEntries_eq]
    exact hpieces (Piece.textOf_ofConjuncts aliases _)
  | page p =>
    obtain ⟨limit, skip, sort⟩ := p
    have hbound (word : String) (n : Nat) :
        textOf (Piece.bound word n).row = (word ++ " " ++ placeholder n).toList := by
      simp [Piece.row, Lexeme.text]
    refine hpieces ?_
    cases skip with
    | none => exact congrArg ([·]) (hbound "LIMIT" start)
    | some skip =>
      exact congrArg₂ ([·, ·]) (hbound "LIMIT" start) (hbound "OFFSET" (start + 1))

end Stage

end RowFilter.Sql
