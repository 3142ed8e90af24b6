import RowFilter.Proofs.Sql.Tail
import Mathlib.Data.List.Chain

/-!
The text of a tail as a row of lexemes: words, placeholders, columns, and what stands between them.
The lexemes of a tail form a `Phrase`: blanks and commas stand singly and only between phrases, so
no two words touch.
-/

set_option autoImplicit false

namespace RowFilter

namespace Sql

/-! ### Lexemes and phrases -/

inductive Lexeme where
  | word (text : String)
  | placeholder (n : Nat)
  | column (c : Column)
  | blank
  | comma
  | opening
  | closing
deriving DecidableEq

namespace Lexeme

def text : Lexeme → List Char
  | .word s => s.toList
  | .placeholder n => (Sql.placeholder n).toList
  | .column c => c.text.toList
  | .blank => [' ']
  | .comma => [',', ' ']
  | .opening => ['(']
  | .closing => [')']

def isWord : Lexeme → Bool
  | .word _ => true
  | .placeholder _ => true
  | .column _ => true
  | _ => false

/-- The number of a placeholder. -/
def number? : Lexeme → Option Nat
  | .placeholder n => some n
  | _ => none

/-- A word begins only behind a blank, a comma or an opening bracket, and ends only before a blank,
a comma or a closing bracket. -/
def Apart (a b : Lexeme) : Prop :=
  (b.isWord = true → a = .blank ∨ a = .comma ∨ a = .opening) ∧
    (a.isWord = true → b = .blank ∨ b = .comma ∨ b = .closing)

end Lexeme

/-- The text of a row of lexemes. -/
def textOf (ls : List Lexeme) : List Char := ls.flatMap Lexeme.text

@[simp] theorem textOf_nil : textOf [] = [] := rfl

@[simp] theorem textOf_cons (l : Lexeme) (ls : List Lexeme) :
    textOf (l :: ls) = l.text ++ textOf ls := rfl

@[simp] theorem textOf_append (first second : List Lexeme) :
    textOf (first ++ second) = textOf first ++ textOf second := List.flatMap_append

theorem textOf_intercalate (sep : List Lexeme) (ls : List (List Lexeme)) :
    textOf (sep.intercalate ls) = (textOf sep).intercalate (ls.map textOf) := by
  induction ls with
  | nil => rfl
  | cons l rest ih =>
    cases rest with
    | nil => simp only [List.intercalate_singleton, List.map_cons, List.map_nil]
    | cons m rest =>
      rw [List.intercalate_cons_cons, textOf_append, textOf_append, ih]
      simp only [List.map_cons, List.intercalate_cons_cons]

/-- Words, put together with single blanks, commas and brackets. -/
inductive Phrase : List Lexeme → Prop where
  | word {l : Lexeme} (h : l.isWord = true) : Phrase [l]
  | spaced {first second : List Lexeme} (h₁ : Phrase first) (h₂ : Phrase second) :
    Phrase (first ++ .blank :: second)
  | listed {first second : List Lexeme} (h₁ : Phrase first) (h₂ : Phrase second) :
    Phrase (first ++ .comma :: second)
  | bracketed {inner : List Lexeme} (h : Phrase inner) : Phrase (.opening :: inner ++ [.closing])

namespace Phrase

/-- In a phrase no two words touch. -/
theorem isChain_apart {ls : List Lexeme} (h : Phrase ls) : ls.IsChain Lexeme.Apart := by
  induction h with
  | word h => exact List.isChain_singleton _
  | spaced _ _ ih₁ ih₂ =>
    refine List.isChain_append.mpr ⟨ih₁, List.isChain_cons.mpr ⟨?_, ih₂⟩, ?_⟩ <;>
      simp [Lexeme.Apart, Lexeme.isWord]
  | listed _ _ ih₁ ih₂ =>
    refine List.isChain_append.mpr ⟨ih₁, List.isChain_cons.mpr ⟨?_, ih₂⟩, ?_⟩ <;>
      simp [Lexeme.Apart, Lexeme.isWord]
  | bracketed _ ih =>
    refine List.isChain_append.mpr
      ⟨List.isChain_cons.mpr ⟨?_, ih⟩, List.isChain_singleton _, ?_⟩ <;>
      simp [Lexeme.Apart, Lexeme.isWord]

/-- Phrases between separators that join two phrases to one. -/
theorem intercalate {sep : List Lexeme}
    (hsep : ∀ first second, Phrase first → Phrase second → Phrase (first ++ sep ++ second))
    {ls : List (List Lexeme)} (hne : ls ≠ []) (hls : ∀ l ∈ ls, Phrase l) :
    Phrase (sep.intercalate ls) := by
  induction ls with
  | nil => exact absurd rfl hne
  | cons l rest ih =>
    cases rest with
    | nil =>
      rw [List.intercalate_singleton]
      exact hls l List.mem_cons_self
    | cons m rest =>
      rw [List.intercalate_cons_cons]
      refine hsep _ _ (hls l List.mem_cons_self) (ih (List.cons_ne_nil m rest) fun x hx ↦ ?_)
      exact hls x (List.mem_cons_of_mem l hx)

theorem join_word (text : String) {first second : List Lexeme} (h₁ : Phrase first)
    (h₂ : Phrase second) : Phrase (first ++ [.blank, .word text, .blank] ++ second) := by
  have hwhole := spaced h₁ (spaced (word (l := .word text) rfl) h₂)
  simpa using hwhole

theorem join_comma {first second : List Lexeme} (h₁ : Phrase first) (h₂ : Phrase second) :
    Phrase (first ++ [.comma] ++ second) := by
  simpa using listed h₁ h₂

end Phrase

/-! ### The lexemes of a tail -/

def Test.lexemes : Test Nat → List Lexeme
  | .isNull => [.word "IS", .blank, .word "NULL"]
  | .isNotNull => [.word "IS", .blank, .word "NOT", .blank, .word "NULL"]
  | .equals n => [.word "=", .blank, .placeholder n]
  | .compare op n => [.word op.sign, .blank, .placeholder n]

def Term.lexemes (t : Term Nat) : List Lexeme := .column t.column :: .blank :: t.test.lexemes

def Conjunct.lexemes : Conjunct Nat → List Lexeme
  | .group ts =>
    .opening :: [.blank, .word "OR", .blank].intercalate (ts.map Term.lexemes) ++ [.closing]
  | .single t => t.lexemes

def sortLexemes (term : Column × Direction) : List Lexeme :=
  [.column term.1, .blank, .word (directionText term.2)]

namespace Tail

/-- The condition on rows with the blank behind it, or nothing. -/
def whereLexemes : List (Conjunct Nat) → List Lexeme
  | [] => []
  | cs => .word "WHERE" :: .blank ::
      [.blank, .word "AND", .blank].intercalate (cs.map Conjunct.lexemes) ++ [.blank]

/-- The order of rows with the blank behind it, or nothing. -/
def orderLexemes : List (Column × Direction) → List Lexeme
  | [] => []
  | terms => .word "ORDER" :: .blank :: .word "BY" :: .blank ::
      [.comma].intercalate (terms.map sortLexemes) ++ [.blank]

def limitLexemes (n : Nat) : List Lexeme := [.word "LIMIT", .blank, .placeholder n]

def skipLexemes : Option Nat → List Lexeme
  | none => []
  | some n => [.blank, .word "OFFSET", .blank, .placeholder n]

def lexemes (t : Tail Nat) : List Lexeme :=
  whereLexemes t.conjuncts ++ orderLexemes t.sort ++ limitLexemes t.limit ++ skipLexemes t.skip

def text (t : Tail Nat) : List Char := textOf t.lexemes

end Tail

/-! ### The tail as a phrase -/

theorem Test.phrase_lexemes (t : Test Nat) : Phrase t.lexemes := by
  cases t with
  | isNull => exact .spaced (.word (l := .word "IS") rfl) (.word (l := .word "NULL") rfl)
  | isNotNull =>
    exact .spaced (.word (l := .word "IS") rfl)
      (.spaced (.word (l := .word "NOT") rfl) (.word (l := .word "NULL") rfl))
  | equals n => exact .spaced (.word (l := .word "=") rfl) (.word (l := .placeholder n) rfl)
  | compare op n =>
    exact .spaced (.word (l := .word op.sign) rfl) (.word (l := .placeholder n) rfl)

theorem Term.phrase_lexemes (t : Term Nat) : Phrase t.lexemes :=
  .spaced (.word (l := .column t.column) rfl) t.test.phrase_lexemes

theorem Conjunct.phrase_lexemes {c : Conjunct Nat} (hc : c.terms ≠ []) : Phrase c.lexemes := by
  cases c with
  | single t => exact t.phrase_lexemes
  | group ts =>
    refine .bracketed (Phrase.intercalate (fun _ _ ↦ Phrase.join_word "OR") ?_ ?_)
    · simpa [Conjunct.terms] using hc
    · intro l hl
      obtain ⟨t, -, rfl⟩ := List.mem_map.mp hl
      exact t.phrase_lexemes

/-- Conjuncts of which each has a term, with the joining word between them. -/
theorem Conjunct.phrase_joined {cs : List (Conjunct Nat)} (hne : cs ≠ [])
    (hcs : ∀ c ∈ cs, c.terms ≠ []) :
    Phrase ([.blank, .word "AND", .blank].intercalate (cs.map Conjunct.lexemes)) := by
  refine Phrase.intercalate (fun _ _ ↦ Phrase.join_word "AND") (by simpa using hne) ?_
  intro l hl
  obtain ⟨c, hc, rfl⟩ := List.mem_map.mp hl
  exact Conjunct.phrase_lexemes (hcs c hc)

namespace Tail

variable {α : Type}

/-- Every conjunct has a term. -/
def Filled (t : Tail α) : Prop := ∀ c ∈ t.conjuncts, c.terms ≠ []

theorem filled_ofTemplate (column : Identifier → Column) (t : Template α) :
    (ofTemplate column t).Filled := by
  intro k hk
  obtain ⟨c, -, hk⟩ := mem_conjuncts_ofTemplate.mp hk
  cases c with
  | all ps =>
    obtain ⟨p, -, rfl⟩ := List.mem_map.mp hk
    exact List.cons_ne_nil _ _
  | any ps =>
    cases ps with
    | nil => cases hk
    | cons p rest =>
      obtain rfl := List.mem_singleton.mp hk
      exact List.cons_ne_nil _ _

theorem phrase_lexemes {t : Tail Nat} (ht : t.Filled) : Phrase t.lexemes := by
  have hpage : Phrase (limitLexemes t.limit ++ skipLexemes t.skip) := by
    have hlimit : Phrase (limitLexemes t.limit) :=
      .spaced (.word (l := .word "LIMIT") rfl) (.word (l := .placeholder t.limit) rfl)
    cases t.skip with
    | none => simpa [skipLexemes] using hlimit
    | some n =>
      exact .spaced hlimit
        (.spaced (.word (l := .word "OFFSET") rfl) (.word (l := .placeholder n) rfl))
  have horder : Phrase (orderLexemes t.sort ++ (limitLexemes t.limit ++ skipLexemes t.skip)) := by
    cases hsort : t.sort with
    | nil => exact hpage
    | cons term terms =>
      have hterms : Phrase ([.comma].intercalate ((term :: terms).map sortLexemes)) := by
        refine Phrase.intercalate (fun _ _ ↦ Phrase.join_comma) (by simp) ?_
        intro l hl
        obtain ⟨u, -, rfl⟩ := List.mem_map.mp hl
        exact .spaced (.word (l := .column u.1) rfl) (.word (l := .word _) rfl)
      have hwhole := Phrase.spaced (.spaced (.word (l := .word "ORDER") rfl)
        (.spaced (.word (l := .word "BY") rfl) hterms)) hpage
      simpa [orderLexemes] using hwhole
  cases hconjuncts : t.conjuncts with
  | nil => simpa [lexemes, hconjuncts, whereLexemes] using horder
  | cons c cs =>
    have hcs := Conjunct.phrase_joined (List.cons_ne_nil c cs) fun d hd ↦ ht d (hconjuncts ▸ hd)
    have hwhole := Phrase.spaced (.spaced (.word (l := .word "WHERE") rfl) hcs) horder
    simpa [lexemes, hconjuncts, whereLexemes] using hwhole

end Tail

/-! ### What is picked out of lexemes -/

/-- Nothing is picked but placeholders and columns. -/
structure Lexeme.Picks {γ : Type} (pick : Lexeme → Option γ) : Prop where
  word : ∀ s, pick (.word s) = none
  blank : pick .blank = none
  comma : pick .comma = none
  opening : pick .opening = none
  closing : pick .closing = none

section Picks

variable {γ : Type} {pick : Lexeme → Option γ}

theorem filterMap_intercalate_map {ι : Type} {sep : List Lexeme} (hsep : sep.filterMap pick = [])
    (lexemes : ι → List Lexeme) (parts : List ι) :
    (sep.intercalate (parts.map lexemes)).filterMap pick =
      parts.flatMap fun p ↦ (lexemes p).filterMap pick := by
  induction parts with
  | nil => rfl
  | cons part rest ih =>
    cases rest with
    | nil => simp only [List.map_singleton, List.intercalate_singleton, List.flatMap_singleton]
    | cons next rest =>
      rw [List.map_cons] at ih ⊢
      rw [List.map_cons, List.intercalate_cons_cons, List.filterMap_append, List.filterMap_append,
        hsep, ih, List.append_nil]
      rfl

/-- From a term the column is picked and then the operand. -/
theorem Term.filterMap_lexemes (h : Lexeme.Picks pick) (t : Term Nat) :
    t.lexemes.filterMap pick =
      (pick (.column t.column)).toList ++ t.operands.filterMap fun n ↦ pick (.placeholder n) := by
  obtain ⟨column, test⟩ := t
  have htest : test.lexemes.filterMap pick =
      test.operands.filterMap fun n ↦ pick (.placeholder n) := by
    cases test <;> simp [Test.lexemes, Test.operands, List.filterMap_cons, h.word, h.blank]
  rw [Term.lexemes, List.filterMap_cons, List.filterMap_cons, h.blank, htest]
  cases pick (.column column) <;> rfl

theorem Conjunct.filterMap_lexemes (h : Lexeme.Picks pick) (c : Conjunct Nat) :
    c.lexemes.filterMap pick = c.terms.flatMap fun t ↦ t.lexemes.filterMap pick := by
  cases c with
  | single t => exact (List.append_nil _).symm
  | group ts =>
    have hor : [.blank, .word "OR", .blank].filterMap pick = [] := by simp [h.word, h.blank]
    simp only [lexemes, terms, List.cons_append, List.filterMap_cons, h.opening,
      List.filterMap_append, filterMap_intercalate_map hor, h.closing, List.filterMap_nil,
      List.append_nil]

namespace Tail

theorem filterMap_whereLexemes (h : Lexeme.Picks pick) (cs : List (Conjunct Nat)) :
    (whereLexemes cs).filterMap pick = cs.flatMap fun c ↦ c.lexemes.filterMap pick := by
  cases cs with
  | nil => rfl
  | cons c rest =>
    have hand : [.blank, .word "AND", .blank].filterMap pick = [] := by simp [h.word, h.blank]
    simp only [whereLexemes, List.cons_append, List.filterMap_cons, h.word, h.blank,
      List.filterMap_append, filterMap_intercalate_map hand, List.filterMap_nil, List.append_nil]

theorem filterMap_orderLexemes (h : Lexeme.Picks pick) (terms : List (Column × Direction)) :
    (orderLexemes terms).filterMap pick =
      terms.flatMap fun u ↦ (pick (.column u.1)).toList := by
  have hterm (v : Column × Direction) :
      (sortLexemes v).filterMap pick = (pick (.column v.1)).toList := by
    cases hpick : pick (.column v.1) <;> simp [sortLexemes, hpick, h.word, h.blank]
  cases terms with
  | nil => rfl
  | cons u rest =>
    have hcomma : [.comma].filterMap pick = [] := by simp [h.comma]
    simp only [orderLexemes, List.cons_append, List.filterMap_cons, h.word, h.blank,
      List.filterMap_append, filterMap_intercalate_map hcomma, hterm, List.filterMap_nil,
      List.append_nil]

end Tail

end Picks

end Sql

end RowFilter
