import RowFilter.Proofs.Sql.ReadBack
import Mathlib.Order.MinMax

/-!
Three-valued truth and the truth of a condition as its text says it. The text is read with the
precedence of statements: brackets bind closest, then AND, then OR, and a comparison with a
placeholder is one with the value of its number. `Tail.whereTruth?_text` computes what the text of a
tail comes to, without assuming that it has the form of a tail while it is read.
-/

set_option autoImplicit false

namespace RowFilter

inductive Truth where
  | no
  | unknown
  | yes
deriving DecidableEq, Repr

namespace Truth

def and : Truth → Truth → Truth
  | .no, _ => .no
  | .yes, b => b
  | .unknown, .no => .no
  | .unknown, _ => .unknown

def or : Truth → Truth → Truth
  | .yes, _ => .yes
  | .no, b => b
  | .unknown, .yes => .yes
  | .unknown, _ => .unknown

def all (xs : List Truth) : Truth := xs.foldr and .yes

def any (xs : List Truth) : Truth := xs.foldr or .no

/-- How true a value is: a conjunction is as true as its least true part. -/
def rank : Truth → Nat
  | .no => 0
  | .unknown => 1
  | .yes => 2

theorem rank_and (a b : Truth) : (and a b).rank = min a.rank b.rank := by
  cases a <;> cases b <;> rfl

theorem rank_or (a b : Truth) : (or a b).rank = max a.rank b.rank := by
  cases a <;> cases b <;> rfl

theorem le_rank_all_iff {n : Nat} (hn : n ≤ 2) (xs : List Truth) :
    n ≤ (all xs).rank ↔ ∀ x ∈ xs, n ≤ x.rank := by
  induction xs with
  | nil => exact iff_of_true hn (List.forall_mem_nil _)
  | cons x rest ih =>
    rw [List.forall_mem_cons, ← ih, all, List.foldr_cons, rank_and, le_min_iff]
    rfl

theorem le_rank_any_iff {n : Nat} (hn : 0 < n) (xs : List Truth) :
    n ≤ (any xs).rank ↔ ∃ x ∈ xs, n ≤ x.rank := by
  induction xs with
  | nil =>
    refine iff_of_false (Nat.not_le.mpr hn) ?_
    rintro ⟨x, hx, -⟩
    cases hx
  | cons x rest ih =>
    rw [List.exists_mem_cons_iff, ← ih, any, List.foldr_cons, rank_or, le_max_iff]
    rfl

/-- Two values are equal when they pass the same bounds. -/
theorem eq_of_forall_le_rank_iff {a b : Truth}
    (h : ∀ n, 0 < n → n ≤ 2 → (n ≤ a.rank ↔ n ≤ b.rank)) : a = b := by
  have hone := h 1 (by decide) (by decide)
  have htwo := h 2 (by decide) (by decide)
  clear h
  cases a <;> cases b <;> simp_all [rank]

theorem all_singleton (x : Truth) : all [x] = x := by
  cases x <;> rfl

theorem any_singleton (x : Truth) : any [x] = x := by
  cases x <;> rfl

end Truth

namespace Sql

/-! ### The truth of a text -/

/-- A test with the values of its placeholders. -/
def Test.bound? (values : List Scalar) : Test Nat → Option (Test Scalar)
  | .isNull => some .isNull
  | .isNotNull => some .isNotNull
  | .equals n => values[n - 1]?.map .equals
  | .compare op n => values[n - 1]?.map (.compare op)

def Term.bound? (values : List Scalar) (t : Term Nat) : Option (Term Scalar) :=
  (t.test.bound? values).map fun test ↦ ⟨t.column, test⟩

section Readers

variable (values : List Scalar) (v : Term Scalar → Truth)

def termTruth? : Reader Truth := fun text ↦ do
  let (t, text) ← term? text
  let t ← t.bound? values
  return (v t, text)

def conjunction? (factor? : Reader Truth) : Reader Truth := fun text ↦
  (list? factor? " AND " text).map (Prod.map Truth.all id)

def disjunction? (factor? : Reader Truth) : Reader Truth := fun text ↦
  (list? (conjunction? factor?) " OR " text).map (Prod.map Truth.any id)

/-- A term, or a disjunction in brackets, which may stand in each other up to `depth`. -/
def factor? : Nat → Reader Truth
  | 0, _ => none
  | depth + 1, text =>
    match literal? "(" text with
    | none => termTruth? values v text
    | some text => do
      let (x, text) ← disjunction? (factor? depth) text
      let text ← literal? ")" text
      return (x, text)

theorem factor?_opening (depth : Nat) (text : List Char) :
    factor? values v (depth + 1) ("(".toList ++ text) =
      (disjunction? (factor? values v depth) text).bind fun e ↦
        (literal? ")" e.2).bind fun rest ↦ some (e.1, rest) := by
  rw [factor?, literal?_append]
  rfl

/-- The truth of the condition at the front of a text, up to the next section. A text without a
condition asks for nothing. -/
def whereTruth? (text : List Char) : Option Truth :=
  match literal? "WHERE " text with
  | none => some .yes
  | some text => do
    let (x, rest) ← disjunction? (factor? values v (text.length + 2)) text
    if (literal? " ORDER BY " rest).isSome ∨ (literal? " LIMIT " rest).isSome then return x
    else none

end Readers

/-! ### The truth of a tail -/

def Conjunct.truth {α : Type} (v : Term α → Truth) : Conjunct α → Truth
  | .group ts => .any (ts.map v)
  | .single t => v t

section Truths

variable {values : List Scalar} {v : Term Scalar → Truth}

theorem Term.bound?_eq_some {t : Term Nat} {u : Term Scalar}
    (h : t.map (fun n ↦ values[n - 1]?) = u.map some) : t.bound? values = some u := by
  obtain ⟨column, test⟩ := t
  obtain ⟨column', test'⟩ := u
  obtain ⟨rfl, htest⟩ := Term.mk.inj h
  have hbound : test.bound? values = some test' := by
    cases test <;> cases test' <;> simp_all [Test.map, Test.bound?]
  rw [Term.bound?, hbound]
  rfl

/-- What stands behind a conjunction, and behind a disjunction. -/
def EndsConjunction (rest : List Char) : Prop := Ends rest ∧ literal? " AND " rest = none

def EndsDisjunction (rest : List Char) : Prop :=
  EndsConjunction rest ∧ literal? " OR " rest = none

theorem readsAs_conjunction {factor? : Reader Truth} {texts : List (List Char)} {xs : List Truth}
    (h : List.Forall₂ (ReadsAs factor? Ends) texts xs) (hne : xs ≠ []) :
    ReadsAs (conjunction? factor?) EndsConjunction (" AND ".toList.intercalate texts)
      (Truth.all xs) := by
  intro rest hrest
  have hlist := readsAs_list " AND " (by decide) (fun _ ↦ ends_cons (by decide)) h hne rest hrest
  rw [conjunction?, hlist]
  rfl

theorem readsAs_disjunction {factor? : Reader Truth} {texts : List (List Char)} {xs : List Truth}
    (h : List.Forall₂ (ReadsAs (conjunction? factor?) EndsConjunction) texts xs) (hne : xs ≠ []) :
    ReadsAs (disjunction? factor?) EndsDisjunction (" OR ".toList.intercalate texts)
      (Truth.any xs) := by
  intro rest hrest
  have hlist := readsAs_list " OR " (by decide)
    (fun _ ↦ ⟨ends_cons (by decide), rfl⟩) h hne rest hrest
  rw [disjunction?, hlist]
  rfl

theorem readsAs_conjunction_singleton {factor? : Reader Truth} {text : List Char} {x : Truth}
    (h : ReadsAs factor? Ends text x) :
    ReadsAs (conjunction? factor?) EndsConjunction text x := by
  have hone := readsAs_conjunction (.cons h .nil) (List.cons_ne_nil _ _)
  rwa [List.intercalate_singleton, Truth.all_singleton] at hone

theorem readsAs_disjunction_singleton {factor? : Reader Truth} {text : List Char} {x : Truth}
    (h : ReadsAs (conjunction? factor?) EndsConjunction text x) :
    ReadsAs (disjunction? factor?) EndsDisjunction text x := by
  have hone := readsAs_disjunction (.cons h .nil) (List.cons_ne_nil _ _)
  rwa [List.intercalate_singleton, Truth.any_singleton] at hone

theorem readsAs_factor_term {t : Term Nat} {u : Term Scalar}
    (h : t.map (fun n ↦ values[n - 1]?) = u.map some) (depth : Nat) :
    ReadsAs (factor? values v (depth + 1)) Ends (textOf t.lexemes) (v u) := by
  intro rest hrest
  have ht := reads_term.complete (a := t) trivial rest hrest
  simp only [factor?, literal?_opening_term, termTruth?, ht, Option.bind_eq_bind, Option.bind_some,
    Term.bound?_eq_some h]
  rfl

theorem readsAs_factor_conjunct {c : Conjunct Nat} {d : Conjunct Scalar} (hc : c.terms ≠ [])
    (h : c.map (fun n ↦ values[n - 1]?) = d.map some) (depth : Nat) :
    ReadsAs (factor? values v (depth + 2)) Ends (textOf c.lexemes) (d.truth v) := by
  cases c with
  | single t =>
    cases d with
    | group us => cases h
    | single u => exact readsAs_factor_term (Conjunct.single.inj h) (depth + 1)
  | group ts =>
    cases d with
    | single u => cases h
    | group us =>
      have hterms : List.Forall₂ (fun t u ↦ t.map (fun n ↦ values[n - 1]?) = u.map some) ts us := by
        have hmap := Conjunct.group.inj h
        rw [← List.forall₂_eq_eq_eq, List.forall₂_map_left_iff, List.forall₂_map_right_iff] at hmap
        exact hmap
      have hinner : List.Forall₂ (ReadsAs (conjunction? (factor? values v (depth + 1)))
          EndsConjunction) (ts.map fun t ↦ textOf t.lexemes) (us.map v) := by
        rw [List.forall₂_map_left_iff, List.forall₂_map_right_iff]
        exact hterms.imp fun t u htu ↦
          readsAs_conjunction_singleton (readsAs_factor_term htu depth)
      have hne : us.map v ≠ [] := by
        rw [List.ne_nil_iff_length_pos, List.length_map, ← hterms.length_eq]
        exact List.length_pos_iff.mpr hc
      intro rest hrest
      have hdisjunction := readsAs_disjunction hinner hne (")".toList ++ rest)
        ⟨⟨ends_cons (by decide), rfl⟩, rfl⟩
      simp only [textOf_group, List.append_assoc, factor?_opening, hdisjunction, Option.bind_some,
        literal?_append]
      rfl

/-- Terms and groups joined by AND are read as their conjunction. -/
theorem readsAs_disjunction_conjuncts {cs : List (Conjunct Nat)} {ds : List (Conjunct Scalar)}
    (hne : cs ≠ []) (hcs : ∀ c ∈ cs, c.terms ≠ [])
    (h : List.Forall₂ (fun c d ↦ c.map (fun n ↦ values[n - 1]?) = d.map some) cs ds) (depth : Nat) :
    ReadsAs (disjunction? (factor? values v (depth + 2))) EndsDisjunction
      (" AND ".toList.intercalate (cs.map fun c ↦ textOf c.lexemes))
      (.all (ds.map (Conjunct.truth v))) := by
  refine readsAs_disjunction_singleton (readsAs_conjunction ?_ ?_)
  · rw [List.forall₂_map_left_iff, List.forall₂_map_right_iff]
    exact ((List.forall₂_and_left _ _).mpr ⟨hcs, h⟩).imp fun _ _ hcd ↦
      readsAs_factor_conjunct hcd.1 hcd.2 depth
  · rw [List.ne_nil_iff_length_pos, List.length_map, ← h.length_eq]
    exact List.length_pos_iff.mpr hne

/-- Read with precedence, the text of a tail comes to the conjunction of its conjuncts. -/
theorem Tail.whereTruth?_text {t : Tail Nat} {u : Tail Scalar} (ht : t.Filled)
    (h : t.map (fun n ↦ values[n - 1]?) = u.map some) :
    whereTruth? values v t.text = some (.all (u.conjuncts.map (Conjunct.truth v))) := by
  have hpairs : List.Forall₂ (fun c d ↦ c.map (fun n ↦ values[n - 1]?) = d.map some) t.conjuncts
      u.conjuncts := by
    have hmap : t.conjuncts.map (Conjunct.map fun n ↦ values[n - 1]?) =
        u.conjuncts.map (Conjunct.map some) := congrArg Tail.conjuncts h
    rwa [← List.forall₂_eq_eq_eq, List.forall₂_map_left_iff, List.forall₂_map_right_iff] at hmap
  obtain ⟨hword, hand, hor⟩ := t.literal?_behindWhere
  rw [text_eq, textOf_where]
  by_cases hcs : t.conjuncts = []
  · have hds : u.conjuncts = [] := List.forall₂_nil_left_iff.mp (hcs ▸ hpairs)
    rw [hcs, hds, writeClause, List.nil_append, whereTruth?, hword]
    rfl
  · have hstop : EndsDisjunction (" ".toList ++ t.behindWhere) :=
      ⟨⟨ends_cons (by decide), hand⟩, hor⟩
    have hsection : (literal? " ORDER BY " (" ".toList ++ t.behindWhere)).isSome ∨
        (literal? " LIMIT " (" ".toList ++ t.behindWhere)).isSome := by
      unfold behindWhere
      cases t.sort with
      | nil => exact Or.inr rfl
      | cons term terms => exact Or.inl rfl
    have hcondition (depth : Nat) :=
      readsAs_disjunction_conjuncts (v := v) hcs ht hpairs depth _ hstop
    simp only [writeClause_of_ne_nil hcs, List.append_assoc, whereTruth?, literal?_append,
      hcondition, Option.bind_eq_bind, Option.bind_some, if_pos hsection]
    rfl

end Truths

end Sql

end RowFilter
