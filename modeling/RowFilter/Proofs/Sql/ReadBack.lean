import RowFilter.Proofs.Sql.BoundTail
import RowFilter.Proofs.Sql.Reader

/-!
Reading a tail back from its text. `Tail.read?` goes through the text once, section by section, and
`Tail.read?_eq_some_iff` says that it reads exactly the texts of tails and gets back the tail. A
word is taken for a keyword by its place alone, so that a column may be named like one.
`Filter.read?_compile` is the consequence for the text of a compiled filter.
-/

set_option autoImplicit false

namespace RowFilter.Sql

/-! ### Terms -/

def nullTests : List (String × Test Nat) := [("IS NULL", .isNull), ("IS NOT NULL", .isNotNull)]

def comparisons : List (String × (Nat → Test Nat)) :=
  ("= ", .equals) :: Operator.all.map fun op ↦ (op.sign ++ " ", .compare op)

def test? : Reader (Test Nat) := fun text ↦
  match choice? nullTests text with
  | some (t, text) => some (t, text)
  | none => do
    let (test, text) ← choice? comparisons text
    let (n, text) ← placeholder? text
    return (test n, text)

def term? : Reader (Term Nat) := fun text ↦ do
  let (column, text) ← column? text
  let text ← literal? " " text
  let (test, text) ← test? text
  return (⟨column, test⟩, text)

theorem textOf_comparison {word : String} {test : Nat → Test Nat}
    (h : (word, test) ∈ comparisons) (n : Nat) :
    textOf (test n).lexemes = word.toList ++ (placeholder n).toList := by
  rcases List.mem_cons.mp h with h | h
  · cases h
    rw [textOf_testLexemes, Test.text, String.toList_append]
  · obtain ⟨op, -, h⟩ := List.mem_map.mp h
    cases h
    rw [textOf_testLexemes, Test.text, String.toList_append]

/-- A comparison is found by its sign, since no sign with the blank behind it begins another one. -/
theorem choice?_comparisons {word : String} {test : Nat → Test Nat}
    (h : (word, test) ∈ comparisons) (rest : List Char) :
    choice? nullTests (word.toList ++ rest) = none ∧
      choice? comparisons (word.toList ++ rest) = some (test, rest) := by
  rcases List.mem_cons.mp h with h | h
  · cases h
    exact ⟨rfl, rfl⟩
  · obtain ⟨op, -, h⟩ := List.mem_map.mp h
    cases h
    cases op <;> exact ⟨rfl, rfl⟩

theorem reads_test : Reads test? (fun _ ↦ True) (fun t ↦ textOf t.lexemes) Ends where
  sound := by
    intro text t rest h
    refine ⟨trivial, ?_⟩
    unfold test? at h
    split at h
    · rename_i hnull
      cases h
      obtain ⟨word, hmem, htext⟩ := exists_of_choice? hnull
      rw [htext]
      rcases List.mem_cons.mp hmem with h | h
      · cases h
        rfl
      · cases List.mem_singleton.mp h
        rfl
    · obtain ⟨⟨test, behind⟩, htest, h⟩ := Option.bind_eq_some_iff.mp h
      obtain ⟨⟨n, rest'⟩, hn, h⟩ := Option.bind_eq_some_iff.mp h
      cases h
      obtain ⟨word, hmem, htext⟩ := exists_of_choice? htest
      rw [htext, (reads_placeholder.sound hn).2, textOf_comparison hmem, List.append_assoc]
  complete := by
    intro t _ rest hstop
    have hcompared (word : String) (test : Nat → Test Nat) (hmem : (word, test) ∈ comparisons)
        (n : Nat) : test? (textOf (test n).lexemes ++ rest) = some (test n, rest) := by
      obtain ⟨hnull, htest⟩ := choice?_comparisons hmem ((placeholder n).toList ++ rest)
      have hn := reads_placeholder.complete (a := n) trivial rest hstop
      rw [textOf_comparison hmem, List.append_assoc, test?, hnull]
      simp only [htest, Option.bind_eq_bind, Option.bind_some, hn]
      rfl
    cases t with
    | isNull => rfl
    | isNotNull => rfl
    | equals n => exact hcompared "= " .equals List.mem_cons_self n
    | compare op n =>
      exact hcompared _ (.compare op) (List.mem_cons_of_mem _ (List.mem_map_of_mem op.mem_all)) n

theorem textOf_term (t : Term Nat) :
    textOf t.lexemes = t.column.text.toList ++ (" ".toList ++ textOf t.test.lexemes) := rfl

theorem reads_term : Reads term? (fun _ ↦ True) (fun t ↦ textOf t.lexemes) Ends where
  sound := by
    intro text t rest h
    obtain ⟨⟨column, behind⟩, hcolumn, h⟩ := Option.bind_eq_some_iff.mp h
    obtain ⟨text', hblank, h⟩ := Option.bind_eq_some_iff.mp h
    obtain ⟨⟨test, rest'⟩, htest, h⟩ := Option.bind_eq_some_iff.mp h
    cases h
    refine ⟨trivial, ?_⟩
    rw [(reads_column.sound hcolumn).2, literal?_eq_some_iff.mp hblank, (reads_test.sound htest).2,
      textOf_term, List.append_assoc, List.append_assoc]
  complete := by
    intro t _ rest hstop
    have hcolumn := reads_column.complete (a := t.column) trivial
      (" ".toList ++ (textOf t.test.lexemes ++ rest)) (ends_cons (by decide))
    have htest := reads_test.complete (a := t.test) trivial rest hstop
    simp only [textOf_term, List.append_assoc, term?, hcolumn, Option.bind_eq_bind,
      Option.bind_some, literal?_append, htest]
    rfl

/-! ### Conjuncts and sort terms -/

/-- A bracket at the front opens a group. -/
def conjunct? : Reader (Conjunct Nat) := fun text ↦
  match literal? "(" text with
  | none => (term? text).map fun e ↦ (.single e.1, e.2)
  | some text => do
    let (terms, text) ← list? term? " OR " text
    let text ← literal? ")" text
    return (.group terms, text)

theorem reads_terms : Reads (list? term? " OR ") (fun ts ↦ ts ≠ [] ∧ ∀ t ∈ ts, True)
    (fun ts ↦ " OR ".toList.intercalate (ts.map fun t ↦ textOf t.lexemes))
    (fun rest ↦ Ends rest ∧ literal? " OR " rest = none) :=
  reads_list reads_term (by decide) fun _ ↦ ends_cons (by decide)

theorem textOf_group (ts : List (Term Nat)) : textOf (Conjunct.group ts).lexemes =
    "(".toList ++ (" OR ".toList.intercalate (ts.map fun t ↦ textOf t.lexemes) ++ ")".toList) := by
  rw [Conjunct.lexemes, textOf_append, textOf_cons, textOf_intercalate, List.map_map,
    List.append_assoc]
  rfl

/-- A column begins with a letter, a digit or an underscore. -/
theorem isWordChar_head_column (c : Column) (rest : List Char) :
    ∀ d ∈ (c.text.toList ++ rest).head?, isWordChar d = true := by
  have hname (i : Identifier) (rest : List Char) :
      ∀ d ∈ (i.text.toList ++ rest).head?, isWordChar d = true := by
    intro d hd
    have hne : i.text.toList ≠ [] := by
      have hvalid := i.valid
      simp only [isIdentifier, Bool.and_eq_true, Bool.not_eq_true', List.isEmpty_eq_false_iff]
        at hvalid
      exact hvalid.1
    rw [List.head?_append_of_ne_nil _ hne] at hd
    exact isWordChar_of_mem (List.mem_of_mem_head? hd)
  obtain ⟨qualifier, field⟩ := c
  cases qualifier with
  | none => exact hname field rest
  | some a =>
    rw [Column.text, String.toList_append, String.toList_append, List.append_assoc,
      List.append_assoc]
    exact hname a _

/-- No term begins with a bracket. -/
theorem literal?_opening_term (t : Term Nat) (rest : List Char) :
    literal? "(" (textOf t.lexemes ++ rest) = none := by
  refine literal?_eq_none (fun d hd hmem ↦ ?_) (by decide)
  rw [textOf_term, List.append_assoc] at hmem
  obtain rfl : '(' = d := Option.some.inj hd
  exact absurd (isWordChar_head_column _ _ _ hmem) (by decide)

theorem reads_conjunct :
    Reads conjunct? (fun c ↦ c.terms ≠ []) (fun c ↦ textOf c.lexemes) Ends where
  sound := by
    intro text c rest h
    unfold conjunct? at h
    split at h
    · obtain ⟨⟨t, behind⟩, ht, heq⟩ := Option.map_eq_some_iff.mp h
      cases heq
      exact ⟨List.cons_ne_nil _ _, (reads_term.sound ht).2⟩
    · rename_i inside hopening
      obtain ⟨⟨ts, behind⟩, hts, h⟩ := Option.bind_eq_some_iff.mp h
      obtain ⟨rest', hclosing, h⟩ := Option.bind_eq_some_iff.mp h
      cases h
      obtain ⟨⟨hne, -⟩, htext⟩ := reads_terms.sound hts
      refine ⟨hne, ?_⟩
      rw [literal?_eq_some_iff.mp hopening, htext, literal?_eq_some_iff.mp hclosing, textOf_group]
      simp only [List.append_assoc]
  complete := by
    intro c hc rest hstop
    cases c with
    | single t =>
      have hterm := reads_term.complete (a := t) trivial rest hstop
      rw [Conjunct.lexemes, conjunct?, literal?_opening_term]
      simp only [hterm, Option.map_some]
    | group ts =>
      have hts := reads_terms.complete (a := ts) ⟨hc, fun _ _ ↦ trivial⟩ (")".toList ++ rest)
        ⟨ends_cons (by decide), rfl⟩
      simp only [textOf_group, List.append_assoc, conjunct?, literal?_append, hts,
        Option.bind_eq_bind, Option.bind_some]
      rfl

def directions : List (String × Direction) := [("ASC", .asc), ("DESC", .desc)]

def sortTerm? : Reader (Column × Direction) := fun text ↦ do
  let (column, text) ← column? text
  let text ← literal? " " text
  let (direction, text) ← choice? directions text
  return ((column, direction), text)

theorem textOf_sortTerm (t : Column × Direction) : textOf (sortLexemes t) =
    t.1.text.toList ++ (" ".toList ++ (directionText t.2).toList) := by
  rw [sortLexemes, textOf_cons, textOf_cons, textOf_cons, textOf_nil, List.append_nil]
  rfl

theorem reads_sortTerm : Reads sortTerm? (fun _ ↦ True) (fun t ↦ textOf (sortLexemes t))
    (fun _ ↦ True) where
  sound := by
    intro text t rest h
    obtain ⟨⟨column, behind⟩, hcolumn, h⟩ := Option.bind_eq_some_iff.mp h
    obtain ⟨text', hblank, h⟩ := Option.bind_eq_some_iff.mp h
    obtain ⟨⟨direction, rest'⟩, hdirection, h⟩ := Option.bind_eq_some_iff.mp h
    cases h
    obtain ⟨word, hmem, htext⟩ := exists_of_choice? hdirection
    have hword : word = directionText direction := by
      rcases List.mem_cons.mp hmem with h | h
      · cases h
        rfl
      · cases List.mem_singleton.mp h
        rfl
    refine ⟨trivial, ?_⟩
    rw [(reads_column.sound hcolumn).2, literal?_eq_some_iff.mp hblank, htext, hword,
      textOf_sortTerm, List.append_assoc, List.append_assoc]
  complete := by
    rintro ⟨column, direction⟩ - rest -
    have hcolumn := reads_column.complete (a := column) trivial
      (" ".toList ++ ((directionText direction).toList ++ rest)) (ends_cons (by decide))
    have hdirection : choice? directions ((directionText direction).toList ++ rest) =
        some (direction, rest) := by
      cases direction <;> rfl
    simp only [textOf_sortTerm, List.append_assoc, sortTerm?, hcolumn, Option.bind_eq_bind,
      Option.bind_some, literal?_append, hdirection]
    rfl

/-! ### Sections -/

section Sections

variable {α : Type} {item? : Reader α} {good : α → Prop} {write : α → List Char}
  {stop : List Char → Prop}

/-- A section that may be left out: its words, a list of items and a blank. -/
def clause? (opening : String) (item? : Reader α) (separator : String) : Reader (List α) :=
  fun text ↦
    match literal? opening text with
    | none => some ([], text)
    | some text => do
      let (as, text) ← list? item? separator text
      let text ← literal? " " text
      return (as, text)

def writeClause (opening : String) (write : α → List Char) (separator : String) :
    List α → List Char
  | [] => []
  | as => opening.toList ++ separator.toList.intercalate (as.map write) ++ " ".toList

theorem writeClause_of_ne_nil {opening separator : String} {as : List α} (h : as ≠ []) :
    writeClause opening write separator as =
      opening.toList ++ separator.toList.intercalate (as.map write) ++ " ".toList := by
  cases as with
  | nil => exact absurd rfl h
  | cons a as => rfl

theorem reads_clause {opening separator : String}
    (h : Reads (list? item? separator) (fun as ↦ as ≠ [] ∧ ∀ a ∈ as, good a)
      (fun as ↦ separator.toList.intercalate (as.map write))
      (fun rest ↦ stop rest ∧ literal? separator rest = none))
    (hblank : ∀ rest, stop (" ".toList ++ rest)) :
    Reads (clause? opening item? separator) (fun as ↦ ∀ a ∈ as, good a)
      (writeClause opening write separator)
      (fun rest ↦ literal? opening rest = none ∧
        literal? separator (" ".toList ++ rest) = none) where
  sound := by
    intro text as rest has
    unfold clause? at has
    split at has
    · cases has
      exact ⟨List.forall_mem_nil _, rfl⟩
    · rename_i inside hopening
      obtain ⟨⟨as', behind⟩, has', has⟩ := Option.bind_eq_some_iff.mp has
      obtain ⟨rest', hend, has⟩ := Option.bind_eq_some_iff.mp has
      cases has
      obtain ⟨⟨hne, hall⟩, htext⟩ := h.sound has'
      refine ⟨hall, ?_⟩
      rw [literal?_eq_some_iff.mp hopening, htext, literal?_eq_some_iff.mp hend,
        writeClause_of_ne_nil hne]
      simp only [List.append_assoc]
  complete := by
    rintro as hall rest ⟨hopening, hend⟩
    by_cases hne : as = []
    · subst hne
      rw [writeClause, List.nil_append, clause?, hopening]
    · have has := h.complete (a := as) ⟨hne, hall⟩ _ ⟨hblank rest, hend⟩
      simp only [writeClause_of_ne_nil hne, List.append_assoc, clause?, literal?_append, has,
        Option.bind_eq_bind, Option.bind_some]
      rfl

end Sections

/-! ### Tails -/

namespace Tail

theorem textOf_where (cs : List (Conjunct Nat)) : textOf (whereLexemes cs) =
    writeClause "WHERE " (fun c ↦ textOf c.lexemes) " AND " cs := by
  cases cs with
  | nil => rfl
  | cons c rest =>
    simp only [whereLexemes, textOf_append, textOf_cons, textOf_intercalate, List.map_map]
    rfl

theorem reads_where :
    Reads (clause? "WHERE " conjunct? " AND ") (fun cs ↦ ∀ c ∈ cs, c.terms ≠ [])
      (fun cs ↦ textOf (whereLexemes cs))
      (fun rest ↦ literal? "WHERE " rest = none ∧
        literal? " AND " (" ".toList ++ rest) = none) := by
  simp only [textOf_where]
  exact reads_clause (reads_list reads_conjunct (by decide) fun _ ↦ ends_cons (by decide))
    fun _ ↦ ends_cons (by decide)

theorem reads_order :
    Reads (clause? "ORDER BY " sortTerm? ", ") (fun ts ↦ ∀ t ∈ ts, True)
      (fun ts ↦ textOf (orderLexemes ts))
      (fun rest ↦ literal? "ORDER BY " rest = none ∧
        literal? ", " (" ".toList ++ rest) = none) := by
  have hwrite (ts : List (Column × Direction)) : textOf (orderLexemes ts) =
      writeClause "ORDER BY " (fun t ↦ textOf (sortLexemes t)) ", " ts := by
    cases ts with
    | nil => rfl
    | cons t rest =>
      simp only [orderLexemes, textOf_append, textOf_cons, textOf_intercalate, List.map_map]
      rfl
  simp only [hwrite]
  exact reads_clause (reads_list reads_sortTerm (by decide) fun _ ↦ trivial) fun _ ↦ trivial

def skip? : Reader (Option Nat) := fun text ↦
  match literal? " OFFSET " text with
  | none => some (none, text)
  | some text => (placeholder? text).map fun e ↦ (some e.1, e.2)

theorem reads_skip : Reads skip? (fun _ ↦ True) (fun s ↦ textOf (skipLexemes s)) (· = []) where
  sound := by
    intro text s rest h
    refine ⟨trivial, ?_⟩
    unfold skip? at h
    split at h
    · cases h
      rfl
    · rename_i hword
      obtain ⟨⟨n, rest'⟩, hn, heq⟩ := Option.map_eq_some_iff.mp h
      cases heq
      rw [literal?_eq_some_iff.mp hword, (reads_placeholder.sound hn).2, ← List.append_assoc]
      simp [skipLexemes, Lexeme.text]
  complete := by
    rintro s - rest rfl
    cases s with
    | none => rfl
    | some n =>
      have hn := reads_placeholder.complete (a := n) trivial [] ends_nil
      have htext : textOf (skipLexemes (some n)) ++ [] =
          " OFFSET ".toList ++ ((placeholder n).toList ++ []) := by
        simp [skipLexemes, Lexeme.text]
      simp only [htext, skip?, literal?_append, hn, Option.map_some]

/-- Reads a tail from left to right, up to the end of the text. -/
def read? (text : List Char) : Option (Tail Nat) := do
  let (conjuncts, text) ← clause? "WHERE " conjunct? " AND " text
  let (sort, text) ← clause? "ORDER BY " sortTerm? ", " text
  let text ← literal? "LIMIT " text
  let (limit, text) ← placeholder? text
  let (skip, text) ← skip? text
  if text = [] then return ⟨conjuncts, sort, limit, skip⟩ else none

/-- What stands behind the order. -/
def behindOrder (t : Tail Nat) : List Char := textOf (limitLexemes t.limit ++ skipLexemes t.skip)

/-- What stands behind the condition. -/
def behindWhere (t : Tail Nat) : List Char := textOf (orderLexemes t.sort) ++ t.behindOrder

theorem behindOrder_eq (t : Tail Nat) : t.behindOrder =
    "LIMIT ".toList ++ ((placeholder t.limit).toList ++ textOf (skipLexemes t.skip)) := by
  simp [behindOrder, limitLexemes, Lexeme.text]

theorem text_eq (t : Tail Nat) : t.text = textOf (whereLexemes t.conjuncts) ++ t.behindWhere := by
  simp only [text, lexemes, textOf_append, behindWhere, behindOrder, List.append_assoc]

/-- Behind the condition stands the first letter of another section, and no joining word. -/
theorem literal?_behindWhere (t : Tail Nat) :
    literal? "WHERE " t.behindWhere = none ∧
      literal? " AND " (" ".toList ++ t.behindWhere) = none ∧
        literal? " OR " (" ".toList ++ t.behindWhere) = none := by
  unfold behindWhere
  cases t.sort <;> exact ⟨rfl, rfl, rfl⟩

theorem read?_text {t : Tail Nat} (ht : t.Filled) : read? t.text = some t := by
  have hskip := reads_skip.complete (a := t.skip) trivial [] rfl
  rw [List.append_nil] at hskip
  have hends : Ends (textOf (skipLexemes t.skip)) := by
    cases t.skip with
    | none => exact ends_nil
    | some n => exact ends_cons (by decide)
  have hlimit := reads_placeholder.complete (a := t.limit) trivial _ hends
  have horder := reads_order.complete (a := t.sort) (fun _ _ ↦ trivial) t.behindOrder ⟨rfl, rfl⟩
  have hwhere := reads_where.complete (a := t.conjuncts) ht t.behindWhere
    ⟨t.literal?_behindWhere.1, t.literal?_behindWhere.2.1⟩
  simp only [text_eq, read?, hwhere, Option.bind_eq_bind, Option.bind_some]
  rw [behindWhere, horder]
  simp only [behindOrder_eq, literal?_append, hlimit, hskip, Option.bind_some]
  rfl

theorem text_of_read? {text : List Char} {t : Tail Nat} (h : read? text = some t) :
    t.Filled ∧ text = t.text := by
  obtain ⟨⟨conjuncts, behind⟩, hwhere, h⟩ := Option.bind_eq_some_iff.mp h
  obtain ⟨⟨sort, behind'⟩, horder, h⟩ := Option.bind_eq_some_iff.mp h
  obtain ⟨page, hword, h⟩ := Option.bind_eq_some_iff.mp h
  obtain ⟨⟨limit, rest⟩, hlimit, h⟩ := Option.bind_eq_some_iff.mp h
  obtain ⟨⟨skip, last⟩, hskip, h⟩ := Option.bind_eq_some_iff.mp h
  dsimp only at h
  split at h
  · rename_i hend
    cases h
    obtain ⟨hfilled, hconjuncts⟩ := reads_where.sound hwhere
    refine ⟨hfilled, ?_⟩
    rw [hconjuncts, (reads_order.sound horder).2, literal?_eq_some_iff.mp hword,
      (reads_placeholder.sound hlimit).2, (reads_skip.sound hskip).2, hend, text_eq, behindWhere,
      behindOrder_eq, List.append_nil]
  · cases h

/-- The reader accepts exactly the texts of tails, and reads the tail that was written. -/
theorem read?_eq_some_iff {text : List Char} {t : Tail Nat} :
    read? text = some t ↔ t.Filled ∧ text = t.text := by
  constructor
  · exact text_of_read?
  · rintro ⟨ht, rfl⟩
    exact read?_text ht

end Tail

end RowFilter.Sql

namespace RowFilter.Filter

open Sql

theorem conjuncts_boundTail_eq_nil_iff (f : Filter) (aliases : Option AliasMap) :
    (f.boundTail aliases).conjuncts = [] ↔ ∀ e ∈ f.entries, e.predicates = [] := by
  have hentry (e : Entry) :
      e.groups (Column.of aliases) = [] ∧ e.singles (Column.of aliases) = [] ↔
        e.predicates = [] := by
    cases e with
    | field c => exact (and_iff_right rfl).trans List.map_eq_nil_iff
    | anyOf cs =>
      rw [Entry.groups, Entry.singles, and_iff_left rfl]
      split <;> simp_all
  rw [boundTail, List.append_eq_nil_iff, List.flatMap_eq_nil_iff, List.flatMap_eq_nil_iff]
  constructor
  · rintro ⟨hgroups, hsingles⟩ e he
    exact (hentry e).mp ⟨hgroups e he, hsingles e he⟩
  · intro h
    exact ⟨fun e he ↦ ((hentry e).mpr (h e he)).1, fun e he ↦ ((hentry e).mpr (h e he)).2⟩

/-- The text of a compiled filter is the trimmed base, one blank if that is not empty, and a tail
that does not depend on the base. Read from left to right, the tail gives back what the filter asks
for, in its order, with the number of each value in the place of the value. The condition is absent
exactly when no entry yields a predicate, the order exactly when there are no sort terms, and the
second bound is there exactly when it was supplied. The reader accepts no text but those of tails. -/
theorem read?_compile (f : Filter) (base : String) (aliases : Option AliasMap) :
    (f.compile base aliases).sql =
        Text.trim base ++ (if Text.trim base = "" then "" else " ") ++ (f.compile "" aliases).sql ∧
      (∃ t : Tail Nat, Tail.read? (f.compile "" aliases).sql.toList = some t ∧
        t.map (fun n ↦ (f.compile base aliases).values[n - 1]?) =
          (f.boundTail aliases).map some ∧
        (t.conjuncts = [] ↔ ∀ e ∈ f.entries, e.predicates = []) ∧
        (t.sort = [] ↔ f.pagination.sort = []) ∧
        (t.skip.isSome = f.pagination.skip.isSome)) ∧
      ∀ text t, Tail.read? text = some t ↔ t.Filled ∧ text = t.text := by
  have hmap := f.map_tail base aliases
  refine ⟨f.sql_compile base aliases, ⟨f.tail aliases, ?_, hmap, ?_, ?_, ?_⟩,
    fun _ _ ↦ Tail.read?_eq_some_iff⟩
  · rw [toList_sql_tail]
    exact Tail.read?_text (Tail.filled_ofTemplate _ _)
  · rw [← conjuncts_boundTail_eq_nil_iff, ← List.map_eq_nil_iff, ← List.map_eq_nil_iff (l :=
      (f.boundTail aliases).conjuncts)]
    exact Iff.of_eq (congrArg (fun t : Tail (Option Scalar) ↦ t.conjuncts = []) hmap)
  · exact List.map_eq_nil_iff
  · exact Option.isSome_map

end RowFilter.Filter
