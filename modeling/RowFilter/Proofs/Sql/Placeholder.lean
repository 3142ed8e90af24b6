import RowFilter.Proofs.Sql.BoundTail
import RowFilter.Proofs.Sql.Vocabulary
import Mathlib.Data.List.Infix

/-!
Placeholders and the values they stand for. Numbers are given in the order of the entries while
groups are written first, so the numbers of a text are not in order. `Filter.placeholders_compile`
says that all the same each number from one up to the number of values stands at exactly one place,
behind the column and the operator of the comparison that supplied its value, and that no other
dollar sign occurs behind the base statement.
-/

set_option autoImplicit false

namespace RowFilter

/-! ### The comparisons of a filter that bind a value -/

/-- The comparisons that bind a value, as column and operator, with their values. -/
def Condition.bindings (column : String) : Condition → List (String × Scalar)
  | .isNull => []
  | .equals .null => []
  | .equals s => [(column ++ " =", s)]
  | .compare cs => cs.flatMap fun c ↦
      match c with
      | ⟨.ne, .null⟩ => []
      | ⟨op, s⟩ => [(column ++ " " ++ op.sign, s)]

def FieldCondition.bindings (column : Sql.Columns) (c : FieldCondition) : List (String × Scalar) :=
  c.condition.bindings (column c.field)

def Entry.bindings (column : Sql.Columns) : Entry → List (String × Scalar)
  | .field c => c.bindings column
  | .anyOf cs => cs.flatMap (FieldCondition.bindings column)

/-- What stands before each placeholder with the value of the placeholder: the comparisons in the
order of the entries, then the bounds of the page. -/
def Filter.bindings (f : Filter) (aliases : Option AliasMap) : List (String × Scalar) :=
  f.entries.flatMap (Entry.bindings (Sql.columns aliases)) ++
    ("LIMIT", f.pagination.limit.getD (.int 10)) ::
      (f.pagination.skip.map fun s ↦ ("OFFSET", s)).toList

namespace Sql

/-- The placeholder `n` stands in a text between the two parts, and no digit continues it. -/
def StandsBetween (n : Nat) (text before after : List Char) : Prop :=
  text = before ++ (placeholder n).toList ++ after ∧ ∀ c ∈ after.head?, c.isDigit = false

/-- The placeholder `n` stands at one place of a text only, and there directly behind the label,
which begins a word of the text. -/
def StandsOnceBehind (n : Nat) (label : String) (text : List Char) : Prop :=
  ∃ before after, StandsBetween n text (before ++ (label ++ " ").toList) after ∧
    (∀ c ∈ before.getLast?, c = ' ' ∨ c = '(') ∧
      ∀ x y, StandsBetween n text x y → x = before ++ (label ++ " ").toList ∧ y = after

variable {α β : Type}

/-! ### Holes with what is written before them -/

def Predicate.labelled (column : Columns) (p : Predicate α) : List (String × α) :=
  match p.test with
  | .isNull => []
  | .isNotNull => []
  | .equals a => [(column p.field ++ " =", a)]
  | .compare op a => [(column p.field ++ " " ++ op.sign, a)]

def Clause.labelled (column : Columns) (c : Clause α) : List (String × α) :=
  c.predicates.flatMap (Predicate.labelled column)

def Template.labelled (column : Columns) (t : Template α) : List (String × α) :=
  t.clauses.flatMap (Clause.labelled column) ++
    ("LIMIT", t.limit) :: (t.skip.map fun a ↦ ("OFFSET", a)).toList

theorem Predicate.map_snd_labelled (column : Columns) (p : Predicate α) :
    (p.labelled column).map Prod.snd = p.operands := by
  obtain ⟨field, test⟩ := p
  cases test <;> rfl

theorem Predicate.length_labelled (column : Columns) (p : Predicate α) :
    (p.labelled column).length = p.operands.length := by
  rw [← map_snd_labelled column p, List.length_map]

/-- A predicate has one hole at most, so its number is the first. -/
theorem Predicate.labelled_numbered {column : Columns} {p : Predicate α} {k : Nat} {label : String}
    (n : Nat) (h : ((p.labelled column).map Prod.fst)[k]? = some label) :
    (label, n + k) ∈ (p.numbered n).labelled column := by
  obtain ⟨field, test⟩ := p
  cases test with
  | isNull => cases h
  | isNotNull => cases h
  | equals a =>
    obtain ⟨hk, rfl⟩ := List.getElem?_eq_some_iff.mp h
    obtain rfl : k = 0 := Nat.lt_one_iff.mp hk
    exact List.mem_singleton_self _
  | compare op a =>
    obtain ⟨hk, rfl⟩ := List.getElem?_eq_some_iff.mp h
    obtain rfl : k = 0 := Nat.lt_one_iff.mp hk
    exact List.mem_singleton_self _

theorem Predicate.labelled_map (f : α → β) (column : Columns) (p : Predicate α) :
    (p.map f).labelled column = (p.labelled column).map (Prod.map id f) := by
  obtain ⟨field, test⟩ := p
  cases test <;> rfl

theorem Clause.map_snd_labelled (column : Columns) (c : Clause α) :
    (c.labelled column).map Prod.snd = c.operands := by
  simp only [labelled, operands, List.map_flatMap, Predicate.map_snd_labelled]

theorem Clause.length_labelled (column : Columns) (c : Clause α) :
    (c.labelled column).length = c.operands.length := by
  rw [← map_snd_labelled column c, List.length_map]

theorem Clause.labelled_map (f : α → β) (column : Columns) (c : Clause α) :
    (c.map f).labelled column = (c.labelled column).map (Prod.map id f) := by
  have hpredicates : (c.map f).predicates = c.predicates.map (Predicate.map f) := by
    cases c <;> rfl
  simp only [labelled, hpredicates, List.flatMap_map, List.map_flatMap, Predicate.labelled_map]

/-- The holes of a template in the order of their numbers. -/
theorem Template.map_snd_labelled (column : Columns) (t : Template α) :
    (t.labelled column).map Prod.snd = t.operands := by
  have hskip : ((t.skip.map fun a ↦ ("OFFSET", a)).toList).map Prod.snd = t.skip.toList := by
    cases t.skip <;> rfl
  simp only [labelled, operands, clauseOperands, List.map_append, List.map_cons, List.map_flatMap,
    Clause.map_snd_labelled, hskip]

theorem Template.labelled_map (f : α → β) (column : Columns) (t : Template α) :
    (t.map f).labelled column = (t.labelled column).map (Prod.map id f) := by
  have hskip : ((t.skip.map f).map fun a ↦ ("OFFSET", a)).toList =
      ((t.skip.map fun a ↦ ("OFFSET", a)).toList).map (Prod.map id f) := by
    cases t.skip <;> rfl
  simp only [labelled, map, List.flatMap_map, List.map_append, List.map_cons, List.map_flatMap,
    Clause.labelled_map, hskip, Prod.map_apply, id]

theorem Template.length_labelled (column : Columns) (t : Template α) :
    (t.labelled column).length = t.operands.length := by
  rw [← map_snd_labelled column t, List.length_map]

/-- The `i`-th hole of a template numbered from `n` holds `n + i`, behind the same label. -/
theorem Template.labelled_numbered {n i : Nat} {column : Columns} {t : Template α} {label : String}
    {a : α} (h : (t.labelled column)[i]? = some (label, a)) :
    (label, n + i) ∈ (t.numbered n).labelled column := by
  have hlength : i < ((t.numbered n).labelled column).length := by
    have hlt := (List.getElem?_eq_some_iff.mp h).1
    rw [length_labelled] at hlt
    rwa [length_labelled, operands_numbered, List.length_range']
  have hlabel : (((t.numbered n).labelled column)[i]).1 = label := by
    have hmap := congrArg (labelled column) (map_getElem?_numbered n t)
    rw [labelled_map, labelled_map] at hmap
    have hith := congrArg (fun l ↦ l[i]?) hmap
    simp only [List.getElem?_map, h, List.getElem?_eq_getElem hlength, Option.map_some] at hith
    exact congrArg Prod.fst (Option.some.inj hith)
  have hnumber : (((t.numbered n).labelled column)[i]).2 = n + i := by
    have hrange := (map_snd_labelled column (t.numbered n)).trans (t.operands_numbered n)
    have hith := congrArg (fun l ↦ l[i]?) hrange
    have hi : i < t.operands.length := by
      rwa [length_labelled, operands_numbered, List.length_range'] at hlength
    simp only [List.getElem?_map, List.getElem?_eq_getElem hlength, Option.map_some,
      List.getElem?_range' hi] at hith
    simpa using Option.some.inj hith
  exact List.mem_of_getElem (Prod.ext hlabel hnumber)

/-! ### The template of a filter -/

theorem labelled_ofFieldCondition (column : Columns) (c : FieldCondition) :
    (Predicate.ofFieldCondition c).flatMap (Predicate.labelled column) = c.bindings column := by
  obtain ⟨field, condition⟩ := c
  cases condition with
  | isNull => rfl
  | equals s => cases s <;> rfl
  | compare cs =>
    simp only [Predicate.ofFieldCondition, Test.ofCondition, List.map_map, List.flatMap_map,
      FieldCondition.bindings, Condition.bindings]
    refine List.flatMap_congr fun comparison _ ↦ ?_
    obtain ⟨operator, operand⟩ := comparison
    cases operator <;> cases operand <;> rfl

theorem labelled_ofEntry (column : Columns) (e : Entry) :
    (Clause.ofEntry e).labelled column = e.bindings column := by
  cases e with
  | field c => exact labelled_ofFieldCondition column c
  | anyOf cs =>
    simp only [Clause.ofEntry, Clause.ofAlternatives, Clause.labelled, Clause.predicates,
      List.flatMap_assoc, labelled_ofFieldCondition, Entry.bindings]

theorem labelled_ofFilter (f : Filter) (aliases : Option AliasMap) :
    (Template.ofFilter f).labelled (columns aliases) = f.bindings aliases := by
  simp only [Template.labelled, Template.ofFilter, List.flatMap_map, labelled_ofEntry,
    Filter.bindings]
  rfl

/-! ### Placeholders among the lexemes -/

/-- The numbers of the placeholders in a row of lexemes. -/
def numbersOf (ls : List Lexeme) : List Nat := ls.filterMap Lexeme.number?

theorem picks_number? : Lexeme.Picks Lexeme.number? := ⟨fun _ ↦ rfl, rfl, rfl, rfl, rfl⟩

theorem numbersOf_append (first second : List Lexeme) :
    numbersOf (first ++ second) = numbersOf first ++ numbersOf second := List.filterMap_append

theorem Term.numbersOf_lexemes (t : Term Nat) : numbersOf t.lexemes = t.operands := by
  rw [numbersOf, t.filterMap_lexemes picks_number?]
  exact List.filterMap_some

theorem Conjunct.numbersOf_lexemes (c : Conjunct Nat) : numbersOf c.lexemes = c.operands :=
  (c.filterMap_lexemes picks_number?).trans
    (List.flatMap_congr fun t _ ↦ t.numbersOf_lexemes)

namespace Tail

theorem numbersOf_whereLexemes (cs : List (Conjunct Nat)) :
    numbersOf (whereLexemes cs) = cs.flatMap Conjunct.operands :=
  (filterMap_whereLexemes picks_number? cs).trans
    (List.flatMap_congr fun c _ ↦ c.numbersOf_lexemes)

theorem numbersOf_orderLexemes (terms : List (Column × Direction)) :
    numbersOf (orderLexemes terms) = [] := by
  rw [numbersOf, filterMap_orderLexemes picks_number?]
  exact List.flatMap_eq_nil_iff.mpr fun _ _ ↦ rfl

theorem numbersOf_lexemes (t : Tail Nat) : numbersOf t.lexemes = t.operands := by
  have hpage : numbersOf (limitLexemes t.limit ++ skipLexemes t.skip) =
      t.limit :: t.skip.toList := by
    cases t.skip <;> rfl
  rw [lexemes, List.append_assoc, numbersOf_append, numbersOf_append, numbersOf_whereLexemes,
    numbersOf_orderLexemes, hpage, List.append_nil, operands]

end Tail

/-! ### Placeholders in the text -/

/-- Every dollar sign of a text is the sign of one of its placeholders. -/
theorem split_at_dollar {ls : List Lexeme} (hls : ∀ l ∈ ls, '$' ∈ l.text → ∃ n, l = .placeholder n)
    {before after : List Char} (h : textOf ls = before ++ '$' :: after) :
    ∃ front n back, ls = front ++ .placeholder n :: back ∧ before = textOf front ∧
      after = Nat.toDigits 10 n ++ textOf back := by
  induction ls generalizing before with
  | nil => simp at h
  | cons l rest ih =>
    obtain ⟨hl, hrest⟩ := List.forall_mem_cons.mp hls
    have hbehind (middle : List Char) (hbefore : before = l.text ++ middle)
        (hmiddle : textOf rest = middle ++ '$' :: after) :
        ∃ front n back, l :: rest = front ++ .placeholder n :: back ∧ before = textOf front ∧
          after = Nat.toDigits 10 n ++ textOf back := by
      obtain ⟨front, n, back, hsplit, hfront, hback⟩ := ih hrest hmiddle
      exact ⟨l :: front, n, back, by rw [hsplit, List.cons_append],
        by rw [hbefore, hfront, textOf_cons], hback⟩
    rw [textOf_cons] at h
    rcases List.append_eq_append_iff.mp h with ⟨middle, hbefore, hmiddle⟩ | ⟨middle, htext, hafter⟩
    · exact hbehind middle hbefore hmiddle
    · cases middle with
      | nil => exact hbehind [] (by simpa using htext.symm) (by simpa using hafter.symm)
      | cons c cs =>
        obtain ⟨rfl, hbehindSign⟩ := List.cons.inj hafter
        obtain ⟨n, rfl⟩ := hl (by simp [htext])
        rw [Lexeme.text, toList_placeholder] at htext
        -- The sign of the placeholder is its first character, and its digits hold no other.
        cases before with
        | nil =>
          obtain ⟨-, rfl⟩ := List.cons.inj htext
          exact ⟨[], n, rest, rfl, rfl, hbehindSign⟩
        | cons b bs =>
          obtain ⟨-, hdigits⟩ := List.cons.inj htext
          have hmem : '$' ∈ Nat.toDigits 10 n := by simp [hdigits]
          exact absurd (Nat.isDigit_of_mem_toDigits (by decide) (by decide) hmem) (by decide)

/-! ### Labels in front of placeholders -/

/-- Somewhere in a row of lexemes a placeholder follows directly on lexemes with the text of a
label, the first of which is a word. -/
def LabelledAt (ls : List Lexeme) (label : String) (n : Nat) : Prop :=
  ∃ first rest, first.isWord = true ∧ textOf (first :: rest) = (label ++ " ").toList ∧
    first :: rest ++ [.placeholder n] <:+: ls

theorem LabelledAt.mono {part ls : List Lexeme} {label : String} {n : Nat}
    (h : LabelledAt part label n) (hpart : part <:+: ls) : LabelledAt ls label n := by
  obtain ⟨first, rest, hword, htext, hinfix⟩ := h
  exact ⟨first, rest, hword, htext, hinfix.trans hpart⟩

theorem infix_intercalate {ι : Type} {sep part : List ι} {parts : List (List ι)}
    (h : part ∈ parts) : part <:+: sep.intercalate parts := by
  induction parts with
  | nil => cases h
  | cons p rest ih =>
    cases rest with
    | nil =>
      obtain rfl := List.mem_singleton.mp h
      rw [List.intercalate_singleton]
    | cons next rest =>
      rw [List.intercalate_cons_cons]
      rcases List.mem_cons.mp h with rfl | h
      · rw [List.append_assoc]
        exact List.infix_append_left
      · exact (ih h).trans List.infix_append_right

theorem Term.labelledAt_lexemes {aliases : Option AliasMap} {p : Predicate Nat} {label : String}
    {n : Nat} (h : (label, n) ∈ p.labelled (columns aliases)) :
    LabelledAt (Term.ofPredicate (Column.of aliases) p).lexemes label n := by
  obtain ⟨field, test⟩ := p
  cases test with
  | isNull => cases h
  | isNotNull => cases h
  | equals m =>
    obtain ⟨rfl, rfl⟩ := Prod.mk.inj (List.mem_singleton.mp h)
    refine ⟨.column (Column.of aliases field), [.blank, .word "=", .blank], rfl, ?_,
      List.infix_rfl⟩
    simp only [textOf_cons, textOf_nil, Lexeme.text, Column.text_of, String.toList_append,
      List.append_assoc]
    rfl
  | compare op m =>
    obtain ⟨rfl, rfl⟩ := Prod.mk.inj (List.mem_singleton.mp h)
    refine ⟨.column (Column.of aliases field), [.blank, .word op.sign, .blank], rfl, ?_,
      List.infix_rfl⟩
    simp only [textOf_cons, textOf_nil, Lexeme.text, Column.text_of, String.toList_append,
      List.append_assoc]
    rfl

theorem Conjunct.infix_lexemes {c : Conjunct Nat} {t : Term Nat} (h : t ∈ c.terms) :
    t.lexemes <:+: c.lexemes := by
  cases c with
  | single u =>
    obtain rfl := List.mem_singleton.mp h
    exact List.infix_rfl
  | group ts =>
    have hpart : t.lexemes <:+: [.blank, .word "OR", .blank].intercalate (ts.map Term.lexemes) :=
      infix_intercalate (List.mem_map_of_mem h)
    exact hpart.trans ⟨[.opening], [.closing], rfl⟩

theorem Tail.infix_lexemes {t : Tail Nat} {c : Conjunct Nat} (h : c ∈ t.conjuncts) :
    c.lexemes <:+: t.lexemes := by
  have hwhere : c.lexemes <:+: whereLexemes t.conjuncts := by
    cases hcs : t.conjuncts with
    | nil =>
      rw [hcs] at h
      cases h
    | cons d rest =>
      have hpart : c.lexemes <:+:
          [.blank, .word "AND", .blank].intercalate ((d :: rest).map Conjunct.lexemes) :=
        infix_intercalate (List.mem_map_of_mem (hcs ▸ h))
      exact hpart.trans ⟨[.word "WHERE", .blank], [.blank], rfl⟩
  rw [lexemes, List.append_assoc, List.append_assoc]
  exact hwhere.trans List.infix_append_left

/-- Each hole of a numbered template stands in its tail behind its label. -/
theorem Tail.labelledAt_lexemes {aliases : Option AliasMap} {t : Template Nat} {label : String}
    {n : Nat} (h : (label, n) ∈ t.labelled (Sql.columns aliases)) :
    LabelledAt (ofTemplate (Column.of aliases) t).lexemes label n := by
  rcases List.mem_append.mp h with h | h
  · obtain ⟨c, hc, hlabel⟩ := List.mem_flatMap.mp h
    obtain ⟨p, hp, hlabel⟩ := List.mem_flatMap.mp hlabel
    obtain ⟨k, hk, hterm⟩ :=
      (Conjunct.exists_mem_terms_iff (Column.of aliases)).mpr ⟨p, hp, rfl⟩
    have hmem : k ∈ (ofTemplate (Column.of aliases) t).conjuncts :=
      mem_conjuncts_ofTemplate.mpr ⟨c, hc, hk⟩
    exact (Term.labelledAt_lexemes hlabel).mono
      ((Conjunct.infix_lexemes hterm).trans (infix_lexemes hmem))
  · rcases List.mem_cons.mp h with h | h
    · obtain ⟨rfl, rfl⟩ := Prod.mk.inj h
      refine ⟨.word "LIMIT", [.blank], rfl, by decide, ?_⟩
      exact List.infix_append_right.trans List.infix_append_left
    · cases hskip : t.skip with
      | none =>
        rw [hskip] at h
        cases h
      | some m =>
        rw [hskip] at h
        obtain ⟨rfl, rfl⟩ := Prod.mk.inj (List.mem_singleton.mp h)
        refine ⟨.word "OFFSET", [.blank], rfl, by decide, ?_⟩
        have hpage : [.word "OFFSET", .blank, .placeholder n] <:+: skipLexemes t.skip := by
          rw [hskip]
          exact ⟨[.blank], [], rfl⟩
        exact hpage.trans List.infix_append_right

/-- Where no two words touch, no digit continues a placeholder. -/
theorem notDigit_behind {ls front back : List Lexeme} {n : Nat} (hchain : ls.IsChain Lexeme.Apart)
    (hls : ls = front ++ .placeholder n :: back) :
    ∀ c ∈ (textOf back).head?, c.isDigit = false := by
  have hapart := (List.isChain_append.mp (hls ▸ hchain)).2.1
  cases back with
  | nil => simp
  | cons l _ =>
    rcases (List.isChain_cons_cons.mp hapart).1.2 rfl with rfl | rfl | rfl <;>
      simp [Lexeme.text]

/-- In a row of lexemes in which no two words touch and no number comes twice, a placeholder that
follows a label stands there and nowhere else. -/
theorem LabelledAt.standsOnceBehind {ls : List Lexeme} (hchain : ls.IsChain Lexeme.Apart)
    (hdollar : ∀ l ∈ ls, '$' ∈ l.text → ∃ n, l = .placeholder n) (hnodup : (numbersOf ls).Nodup)
    {label : String} {n : Nat} (h : LabelledAt ls label n) :
    StandsOnceBehind n label (textOf ls) := by
  obtain ⟨first, rest, hword, htext, front, back, hls⟩ := h
  have hsplit : ls = (front ++ first :: rest) ++ .placeholder n :: back := by
    rw [← hls]
    simp
  have hbefore : ∀ c ∈ (textOf front).getLast?, c = ' ' ∨ c = '(' := by
    rcases List.eq_nil_or_concat front with rfl | ⟨front', l, rfl⟩
    · simp
    · have hrow : ls = front' ++ l :: first :: (rest ++ .placeholder n :: back) := by
        rw [hsplit]
        simp
      have hapart := (List.isChain_append.mp (hrow ▸ hchain)).2.1
      rcases (List.isChain_cons_cons.mp hapart).1.1 hword with rfl | rfl | rfl <;>
        simp [Lexeme.text]
  refine ⟨textOf front, textOf back, ⟨?_, notDigit_behind hchain hsplit⟩,
    hbefore, ?_⟩
  · rw [hsplit, textOf_append, textOf_append, htext, textOf_cons, Lexeme.text]
    simp only [List.append_assoc]
  · rintro x y ⟨hxy, hy⟩
    rw [toList_placeholder, List.append_assoc, List.cons_append] at hxy
    obtain ⟨front', m, back', hls', hx, hafter⟩ := split_at_dollar hdollar hxy
    obtain ⟨rfl, rfl⟩ := toDigits_append_inj hy (notDigit_behind hchain hls') hafter
    have hnumbers : (numbersOf front' ++ n :: numbersOf back').Nodup := by
      rw [hls', numbersOf_append] at hnodup
      exact hnodup
    have hnotMem {ls' : List Lexeme} (hn : n ∉ numbersOf ls') : .placeholder n ∉ ls' := fun hmem ↦
      hn (List.mem_filterMap.mpr ⟨_, hmem, rfl⟩)
    obtain ⟨-, hback, hapart⟩ := List.nodup_append.mp hnumbers
    have hfront : n ∉ numbersOf front' := fun hmem ↦ hapart n hmem n List.mem_cons_self rfl
    have hsame := hls'.symm.trans hsplit
    obtain ⟨hfronts, -, hbacks⟩ := (List.append_cons_inj_of_notMem (hnotMem hfront)
      (hnotMem (List.nodup_cons.mp hback).1)).mp hsame
    exact ⟨by rw [hx, hfronts, textOf_append, htext], by rw [hbacks]⟩

/-! ### Placeholders of a compiled filter -/

/-- The gap behind the base as lexemes. -/
def gapLexemes (base : String) : List Lexeme := if Text.trim base = "" then [] else [.blank]

end Sql

namespace Filter

open Sql

/-- What stands behind the trimmed base, as lexemes. -/
def lexemesBehind (f : Filter) (base : String) (aliases : Option AliasMap) : List Lexeme :=
  gapLexemes base ++ (f.tail aliases).lexemes

theorem textOf_lexemesBehind (f : Filter) (base : String) (aliases : Option AliasMap) :
    textOf (f.lexemesBehind base aliases) =
      (gap base ++ (f.compile "" aliases).sql).toList := by
  have hgap : textOf (gapLexemes base) = (gap base).toList := by
    unfold gapLexemes gap
    split <;> rfl
  rw [lexemesBehind, textOf_append, hgap, String.toList_append, toList_sql_tail, Tail.text]

theorem isChain_apart_lexemesBehind (f : Filter) (base : String) (aliases : Option AliasMap) :
    (f.lexemesBehind base aliases).IsChain Lexeme.Apart := by
  have htail : (f.tail aliases).lexemes.IsChain Lexeme.Apart :=
    (Tail.phrase_lexemes (Tail.filled_ofTemplate _ _)).isChain_apart
  unfold lexemesBehind gapLexemes
  split
  · exact htail
  · refine List.isChain_cons.mpr ⟨fun l _ ↦ ?_, htail⟩
    simp [Lexeme.Apart, Lexeme.isWord]

theorem eq_placeholder_of_mem_lexemesBehind {f : Filter} {base : String}
    {aliases : Option AliasMap} {l : Lexeme} (hl : l ∈ f.lexemesBehind base aliases)
    (h : '$' ∈ l.text) : ∃ n, l = .placeholder n := by
  rcases List.mem_append.mp hl with hl | hl
  · unfold gapLexemes at hl
    split at hl
    · cases hl
    · obtain rfl := List.mem_singleton.mp hl
      exact absurd h (by decide)
  · exact eq_placeholder_of_dollar_mem (Tail.admitted_lexemes _ l hl) h

/-- The numbers of the text are those from one on, each once, in some order. -/
theorem numbersOf_lexemesBehind_perm (f : Filter) (base : String) (aliases : Option AliasMap) :
    (numbersOf (f.lexemesBehind base aliases)).Perm
      (List.range' 1 (Template.ofFilter f).operands.length) := by
  have hgap : numbersOf (gapLexemes base) = [] := by
    unfold gapLexemes
    split <;> rfl
  have hperm := Tail.operands_ofTemplate_perm (Column.of aliases)
    ((Template.ofFilter f).numbered firstPlaceholder)
  rwa [Template.operands_numbered, ← Tail.numbersOf_lexemes, ← List.nil_append (numbersOf _),
    ← hgap, ← numbersOf_append] at hperm

theorem values_compile (f : Filter) (base : String) (aliases : Option AliasMap) :
    (f.compile base aliases).values = (f.bindings aliases).map Prod.snd := by
  rw [← labelled_ofFilter, Template.map_snd_labelled]
  rfl

theorem standsOnceBehind_compile {f : Filter} {base : String} {aliases : Option AliasMap} {i : Nat}
    {label : String} {value : Scalar} (h : (f.bindings aliases)[i]? = some (label, value)) :
    StandsOnceBehind (i + 1) label (gap base ++ (f.compile "" aliases).sql).toList := by
  rw [← labelled_ofFilter] at h
  have hlabel := Tail.labelledAt_lexemes (Template.labelled_numbered (n := firstPlaceholder) h)
  rw [firstPlaceholder, Nat.add_comm] at hlabel
  rw [← textOf_lexemesBehind]
  refine (hlabel.mono List.infix_append_right).standsOnceBehind
    (f.isChain_apart_lexemesBehind base aliases) (fun l ↦ eq_placeholder_of_mem_lexemesBehind) ?_
  rw [(f.numbersOf_lexemesBehind_perm base aliases).nodup_iff]
  exact List.nodup_range'

theorem standsBetween_of_dollar {f : Filter} {base : String} {aliases : Option AliasMap}
    {before after : List Char}
    (h : (gap base ++ (f.compile "" aliases).sql).toList = before ++ '$' :: after) :
    ∃ n behind, 1 ≤ n ∧ n ≤ (f.compile base aliases).values.length ∧
      StandsBetween n (gap base ++ (f.compile "" aliases).sql).toList before behind := by
  have hsplit := h
  rw [← textOf_lexemesBehind] at hsplit
  obtain ⟨front, n, back, hfront, rfl, rfl⟩ :=
    split_at_dollar (fun l ↦ eq_placeholder_of_mem_lexemesBehind) hsplit
  have hmem : n ∈ numbersOf (f.lexemesBehind base aliases) :=
    List.mem_filterMap.mpr ⟨.placeholder n, by simp [hfront], rfl⟩
  rw [(f.numbersOf_lexemesBehind_perm base aliases).mem_iff, List.mem_range'_1] at hmem
  have hlength : (f.compile base aliases).values.length =
      (Template.ofFilter f).operands.length := rfl
  refine ⟨n, textOf back, hmem.1, by omega, ?_,
    notDigit_behind (f.isChain_apart_lexemesBehind base aliases) hfront⟩
  rw [h, toList_placeholder, List.append_assoc]
  rfl

/-- The values are those of the binding comparisons in the order of the entries, then the bounds of
the page. Behind the base statement stands a tail in which each number has the place of the
comparison that supplied its value. In its text placeholder `i + 1` stands once, directly behind the
column and the operator that go with value `i`, and every dollar sign is the sign of one of these
placeholders. -/
theorem placeholders_compile (f : Filter) (base : String) (aliases : Option AliasMap) :
    (f.compile base aliases).values = (f.bindings aliases).map Prod.snd ∧
      ∃ tail : String, (f.compile base aliases).sql = Text.trim base ++ tail ∧
        (∃ t : Tail Nat, tail = gap base ++ String.ofList t.text ∧
          t.map (fun n ↦ (f.compile base aliases).values[n - 1]?) =
            (f.boundTail aliases).map some) ∧
        (∀ i label value, (f.bindings aliases)[i]? = some (label, value) →
          StandsOnceBehind (i + 1) label tail.toList) ∧
        ∀ before after, tail.toList = before ++ '$' :: after →
          ∃ n behind, 1 ≤ n ∧ n ≤ (f.compile base aliases).values.length ∧
            StandsBetween n tail.toList before behind := by
  refine ⟨f.values_compile base aliases, gap base ++ (f.compile "" aliases).sql, ?_,
    ⟨f.tail aliases, ?_, f.map_tail base aliases⟩, fun _ _ _ ↦ standsOnceBehind_compile,
    fun _ _ ↦ standsBetween_of_dollar⟩
  · rw [sql_compile, String.append_assoc]
  · rw [← toList_sql_tail, String.ofList_toList]

end Filter

end RowFilter
