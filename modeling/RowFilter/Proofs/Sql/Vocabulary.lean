import RowFilter.Proofs.Sql.Lexeme
import RowFilter.Decimal.Basic

/-!
What the text of a tail is made of. Its words come from a fixed list, its columns from the tail
(`Tail.admitted_lexemes`), and its numbers are digits behind a dollar sign that occurs nowhere else.
-/

set_option autoImplicit false

namespace RowFilter.Sql

/-! ### Words and columns -/

/-- The words of a statement that no filter can change. -/
def keywords : List String :=
  ["WHERE", "AND", "OR", "IS", "NOT", "NULL", "ORDER", "BY", "ASC", "DESC", "LIMIT", "OFFSET"]

def signs : List String := ["=", ">", "<", ">=", "<=", "!="]

/-- Of words only those of the vocabulary, and of columns only the given ones. -/
def Lexeme.Admitted (columns : List Column) : Lexeme → Prop
  | .word s => s ∈ keywords ∨ s ∈ signs
  | .column c => c ∈ columns
  | _ => True

theorem forall_mem_intercalate {ι : Type} {p : ι → Prop} {sep : List ι} {parts : List (List ι)}
    (hsep : ∀ a ∈ sep, p a) (hparts : ∀ part ∈ parts, ∀ a ∈ part, p a) :
    ∀ a ∈ sep.intercalate parts, p a := by
  induction parts with
  | nil => exact List.forall_mem_nil _
  | cons part rest ih =>
    obtain ⟨hpart, hrest⟩ := List.forall_mem_cons.mp hparts
    cases rest with
    | nil => rwa [List.intercalate_singleton]
    | cons next rest =>
      rw [List.intercalate_cons_cons]
      exact List.forall_mem_append.mpr ⟨List.forall_mem_append.mpr ⟨hpart, hsep⟩, ih hrest⟩

theorem Term.admitted_lexemes {columns : List Column} {t : Term Nat} (ht : t.column ∈ columns) :
    ∀ l ∈ t.lexemes, l.Admitted columns := by
  have htest : ∀ l ∈ t.test.lexemes, l.Admitted columns := by
    cases t.test with
    | isNull => simp [Test.lexemes, Lexeme.Admitted, keywords]
    | isNotNull => simp [Test.lexemes, Lexeme.Admitted, keywords]
    | equals n => simp [Test.lexemes, Lexeme.Admitted, signs]
    | compare op n => cases op <;> simp [Test.lexemes, Lexeme.Admitted, signs, Operator.sign]
  exact List.forall_mem_cons.mpr ⟨ht, List.forall_mem_cons.mpr ⟨trivial, htest⟩⟩

theorem Conjunct.admitted_lexemes {columns : List Column} {c : Conjunct Nat}
    (hc : ∀ t ∈ c.terms, t.column ∈ columns) : ∀ l ∈ c.lexemes, l.Admitted columns := by
  cases c with
  | single t => exact t.admitted_lexemes (hc t List.mem_cons_self)
  | group ts =>
    have hparts : ∀ l ∈ [.blank, .word "OR", .blank].intercalate (ts.map Term.lexemes),
        l.Admitted columns := by
      refine forall_mem_intercalate (by simp [Lexeme.Admitted, keywords]) fun part hpart ↦ ?_
      obtain ⟨t, ht, rfl⟩ := List.mem_map.mp hpart
      exact t.admitted_lexemes (hc t ht)
    refine List.forall_mem_append.mpr ⟨List.forall_mem_cons.mpr ⟨trivial, hparts⟩, ?_⟩
    exact List.forall_mem_singleton.mpr trivial

namespace Tail

/-- The columns of the terms and of the sort terms. -/
def columns {α : Type} (t : Tail α) : List Column :=
  t.conjuncts.flatMap (fun c ↦ c.terms.map Term.column) ++ t.sort.map Prod.fst

theorem admitted_whereLexemes {columns : List Column} {cs : List (Conjunct Nat)}
    (hcs : ∀ c ∈ cs, ∀ t ∈ c.terms, t.column ∈ columns) :
    ∀ l ∈ whereLexemes cs, l.Admitted columns := by
  cases cs with
  | nil => exact List.forall_mem_nil _
  | cons c rest =>
    have hparts : ∀ l ∈ [.blank, .word "AND", .blank].intercalate
        ((c :: rest).map Conjunct.lexemes), l.Admitted columns := by
      refine forall_mem_intercalate (by simp [Lexeme.Admitted, keywords]) fun part hpart ↦ ?_
      obtain ⟨d, hd, rfl⟩ := List.mem_map.mp hpart
      exact d.admitted_lexemes (hcs d hd)
    refine List.forall_mem_append.mpr ⟨List.forall_mem_cons.mpr ⟨Or.inl (by decide), ?_⟩, ?_⟩
    · exact List.forall_mem_cons.mpr ⟨trivial, hparts⟩
    · exact List.forall_mem_singleton.mpr trivial

theorem admitted_orderLexemes {columns : List Column} {terms : List (Column × Direction)}
    (hterms : ∀ t ∈ terms, t.1 ∈ columns) : ∀ l ∈ orderLexemes terms, l.Admitted columns := by
  cases terms with
  | nil => exact List.forall_mem_nil _
  | cons u rest =>
    have hparts : ∀ l ∈ [.comma].intercalate ((u :: rest).map sortLexemes),
        l.Admitted columns := by
      refine forall_mem_intercalate (List.forall_mem_singleton.mpr trivial) fun part hpart ↦ ?_
      obtain ⟨⟨column, direction⟩, hterm, rfl⟩ := List.mem_map.mp hpart
      have hcolumn : column ∈ columns := hterms _ hterm
      cases direction <;> simp [sortLexemes, Lexeme.Admitted, directionText, keywords, hcolumn]
    have hwords : ∀ l ∈ ([.word "ORDER", .blank, .word "BY", .blank] : List Lexeme),
        l.Admitted columns := by
      simp [Lexeme.Admitted, keywords]
    exact List.forall_mem_append.mpr
      ⟨List.forall_mem_append.mpr ⟨hwords, hparts⟩, List.forall_mem_singleton.mpr trivial⟩

/-- A tail consists of its vocabulary, its placeholders and its columns. -/
theorem admitted_lexemes (t : Tail Nat) : ∀ l ∈ t.lexemes, l.Admitted t.columns := by
  have hconjuncts : ∀ c ∈ t.conjuncts, ∀ u ∈ c.terms, u.column ∈ t.columns := fun c hc u hu ↦
    List.mem_append_left _ (List.mem_flatMap.mpr ⟨c, hc, List.mem_map_of_mem hu⟩)
  have hsort : ∀ u ∈ t.sort, u.1 ∈ t.columns := fun u hu ↦
    List.mem_append_right _ (List.mem_map_of_mem hu)
  have hlimit : ∀ l ∈ limitLexemes t.limit, l.Admitted t.columns := by
    simp [limitLexemes, Lexeme.Admitted, keywords]
  have hskip : ∀ l ∈ skipLexemes t.skip, l.Admitted t.columns := by
    cases t.skip <;> simp [skipLexemes, Lexeme.Admitted, keywords]
  simp only [lexemes, List.forall_mem_append]
  exact ⟨⟨⟨admitted_whereLexemes hconjuncts, admitted_orderLexemes hsort⟩, hlimit⟩, hskip⟩

end Tail

/-! ### Numbers and names in a text -/

theorem toList_placeholder (n : Nat) : (placeholder n).toList = '$' :: Nat.toDigits 10 n := by
  rw [placeholder, String.toList_append]
  exact congrArg ('$' :: ·) Nat.toList_repr

theorem dollar_mem_placeholder (n : Nat) : '$' ∈ (placeholder n).toList := by
  rw [toList_placeholder]
  exact List.mem_cons_self

theorem toDigits_append_inj {m n : Nat} {first second : List Char}
    (hfirst : ∀ c ∈ first.head?, c.isDigit = false)
    (hsecond : ∀ c ∈ second.head?, c.isDigit = false)
    (h : Nat.toDigits 10 m ++ first = Nat.toDigits 10 n ++ second) : m = n ∧ first = second := by
  have hsplit := congrArg Decimal.splitDigits h
  rw [Decimal.splitDigits_toDigits_append m hfirst,
    Decimal.splitDigits_toDigits_append n hsecond] at hsplit
  obtain ⟨hdigits, hrest⟩ := Prod.mk.inj hsplit
  have hvalue := congrArg Decimal.natOfDigits hdigits
  simp only [Decimal.natOfDigits_toDigits] at hvalue
  exact ⟨hvalue, hrest⟩

theorem isWordChar_of_mem {i : Identifier} {c : Char} (hc : c ∈ i.text.toList) :
    isWordChar c = true := by
  have hvalid := i.valid
  simp only [isIdentifier, Bool.and_eq_true, List.all_eq_true] at hvalid
  exact hvalid.2 c hc

theorem dollar_notMem_column (c : Column) : '$' ∉ c.text.toList := by
  have hname (i : Identifier) : '$' ∉ i.text.toList := fun h ↦
    absurd (isWordChar_of_mem h) (by decide)
  obtain ⟨qualifier, field⟩ := c
  cases qualifier with
  | none => exact hname field
  | some a =>
    simp only [Column.text, String.toList_append, List.mem_append, not_or]
    exact ⟨⟨hname a, by decide⟩, hname field⟩

/-- Among admitted lexemes a dollar sign begins a placeholder. -/
theorem eq_placeholder_of_dollar_mem {columns : List Column} {l : Lexeme} (hl : l.Admitted columns)
    (h : '$' ∈ l.text) : ∃ n, l = .placeholder n := by
  cases l with
  | placeholder n => exact ⟨n, rfl⟩
  | column c => exact absurd h (dollar_notMem_column c)
  | word s =>
    have hwords : ∀ s ∈ keywords ++ signs, '$' ∉ s.toList := by decide
    exact absurd h (hwords s (List.mem_append.mpr hl))
  | blank => exact absurd h (by decide)
  | comma => exact absurd h (by decide)
  | opening => exact absurd h (by decide)
  | closing => exact absurd h (by decide)

end RowFilter.Sql
