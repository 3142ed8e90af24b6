import RowFilter.Sql.Template

/-!
Numbering replaces scalars by numbers and changes nothing else. Looking each number up in the list
of operands gives the clauses back with their scalars (`Template.map_numbered`), so the numbers
carry exactly what the scalars carried, however the clauses are arranged in the text.
-/

set_option autoImplicit false

namespace RowFilter.Sql

variable {α β : Type}

/-! ### Changing what the holes hold -/

namespace Test

def map (f : α → β) : Test α → Test β
  | .isNull => .isNull
  | .isNotNull => .isNotNull
  | .equals a => .equals (f a)
  | .compare op a => .compare op (f a)

theorem map_id (t : Test α) : t.map id = t := by
  cases t <;> rfl

end Test

namespace Predicate

def map (f : α → β) (p : Predicate α) : Predicate β := ⟨p.field, p.test.map f⟩

theorem map_id : map (id : α → α) = id :=
  funext fun p ↦ congrArg (Predicate.mk p.field) p.test.map_id

end Predicate

namespace Clause

def map (f : α → β) : Clause α → Clause β
  | .all ps => .all (ps.map (Predicate.map f))
  | .any ps => .any (ps.map (Predicate.map f))

theorem map_id : map (id : α → α) = id := by
  funext c
  cases c <;> simp only [map, Predicate.map_id, List.map_id, id]

end Clause

namespace Template

def map (f : α → β) (t : Template α) : Template β :=
  ⟨t.clauses.map (Clause.map f), t.sort, f t.limit, t.skip.map f⟩

theorem map_id (t : Template α) : t.map id = t := by
  rw [map, Clause.map_id, List.map_id, Option.map_id_fun]
  rfl

end Template

/-! ### Other first numbers -/

theorem Test.numbered_add (d n : Nat) (t : Test α) :
    t.numbered (d + n) = (t.numbered n).map (d + ·) := by
  cases t <;> rfl

theorem Predicate.numberedAll_add (d n : Nat) (ps : List (Predicate α)) :
    numberedAll (d + n) ps = (numberedAll n ps).map (map (d + ·)) := by
  induction ps generalizing n with
  | nil => rfl
  | cons p rest ih =>
    have hhead : p.numbered (d + n) = (p.numbered n).map (d + ·) :=
      congrArg (Predicate.mk p.field) (Test.numbered_add d n p.test)
    rw [numberedAll, numberedAll, List.map_cons, hhead, Nat.add_assoc, ih]

theorem Clause.numbered_add (d n : Nat) (c : Clause α) :
    c.numbered (d + n) = (c.numbered n).map (d + ·) := by
  cases c with
  | all ps => exact congrArg Clause.all (Predicate.numberedAll_add d n ps)
  | any ps => exact congrArg Clause.any (Predicate.numberedAll_add d n ps)

/-- A later first number is added to all numbers. -/
theorem Clause.numberedAll_add (d n : Nat) (cs : List (Clause α)) :
    numberedAll (d + n) cs = (numberedAll n cs).map (map (d + ·)) := by
  induction cs generalizing n with
  | nil => rfl
  | cons c rest ih =>
    rw [numberedAll, numberedAll, List.map_cons, Clause.numbered_add, Nat.add_assoc, ih]

/-! ### Looking numbers up -/

/-- The numbers from `n` on lead to the operands, one after another. -/
def LeadsTo (lookup : Nat → Option α) (n : Nat) (operands : List α) : Prop :=
  ∀ i < operands.length, lookup (n + i) = operands[i]?

theorem leadsTo_append {lookup : Nat → Option α} {n : Nat} {first second : List α} :
    LeadsTo lookup n (first ++ second) ↔
      LeadsTo lookup n first ∧ LeadsTo lookup (n + first.length) second := by
  constructor
  · intro h
    constructor
    · intro i hi
      have hlook := h i (by simp only [List.length_append]; omega)
      rwa [List.getElem?_append_left hi] at hlook
    · intro i hi
      have hlook := h (first.length + i) (by simp only [List.length_append]; omega)
      rw [List.getElem?_append_right (Nat.le_add_right _ _), Nat.add_sub_cancel_left] at hlook
      rw [Nat.add_assoc, hlook]
  · rintro ⟨hfirst, hsecond⟩ i hi
    by_cases hlt : i < first.length
    · rw [List.getElem?_append_left hlt]
      exact hfirst i hlt
    · have hle : first.length ≤ i := Nat.le_of_not_lt hlt
      have hlook := hsecond (i - first.length) (by simp only [List.length_append] at hi; omega)
      rw [List.getElem?_append_right hle, ← hlook]
      congr 1
      omega

theorem leadsTo_singleton {lookup : Nat → Option α} {n : Nat} {a : α} :
    LeadsTo lookup n [a] ↔ lookup n = some a := by
  constructor
  · intro h
    exact h 0 Nat.zero_lt_one
  · intro h i hi
    obtain rfl : i = 0 := by simpa using hi
    exact h

/-- The list itself, counted from `n`. -/
theorem leadsTo_getElem? (operands : List α) (n : Nat) :
    LeadsTo (fun k ↦ operands[k - n]?) n operands := by
  intro i _
  simp only [Nat.add_sub_cancel_left]

/-! ### Numbers stand for the operands in order -/

theorem Test.map_numbered {lookup : Nat → Option α} {n : Nat} {t : Test α}
    (h : LeadsTo lookup n t.operands) : (t.numbered n).map lookup = t.map some := by
  cases t with
  | isNull => rfl
  | isNotNull => rfl
  | equals a => exact congrArg Test.equals (leadsTo_singleton.mp h)
  | compare op a => exact congrArg (Test.compare op) (leadsTo_singleton.mp h)

theorem Predicate.map_numberedAll {lookup : Nat → Option α} {n : Nat} {ps : List (Predicate α)}
    (h : LeadsTo lookup n (ps.flatMap Predicate.operands)) :
    (Predicate.numberedAll n ps).map (Predicate.map lookup) = ps.map (Predicate.map some) := by
  induction ps generalizing n with
  | nil => rfl
  | cons p rest ih =>
    obtain ⟨hfirst, hrest⟩ := leadsTo_append.mp h
    have hhead : (p.numbered n).map lookup = p.map some :=
      congrArg (Predicate.mk p.field) (Test.map_numbered hfirst)
    rw [Predicate.numberedAll, List.map_cons, List.map_cons, hhead, ih hrest]

theorem Clause.map_numbered {lookup : Nat → Option α} {n : Nat} {c : Clause α}
    (h : LeadsTo lookup n c.operands) : (c.numbered n).map lookup = c.map some := by
  cases c with
  | all ps => exact congrArg Clause.all (Predicate.map_numberedAll h)
  | any ps => exact congrArg Clause.any (Predicate.map_numberedAll h)

theorem Clause.map_numberedAll {lookup : Nat → Option α} {n : Nat} {cs : List (Clause α)}
    (h : LeadsTo lookup n (cs.flatMap Clause.operands)) :
    (Clause.numberedAll n cs).map (Clause.map lookup) = cs.map (Clause.map some) := by
  induction cs generalizing n with
  | nil => rfl
  | cons c rest ih =>
    obtain ⟨hfirst, hrest⟩ := leadsTo_append.mp h
    rw [Clause.numberedAll, List.map_cons, List.map_cons, Clause.map_numbered hfirst, ih hrest]

/-- The numbers of a template stand for its operands. -/
theorem Template.map_numbered {lookup : Nat → Option α} {n : Nat} {t : Template α}
    (h : LeadsTo lookup n t.operands) : (t.numbered n).map lookup = t.map some := by
  obtain ⟨hclauses, hpage⟩ := leadsTo_append.mp h
  rw [← List.singleton_append] at hpage
  obtain ⟨hlimit, hskip⟩ := leadsTo_append.mp hpage
  have hlimitLook := leadsTo_singleton.mp hlimit
  have hskipLook : (t.skip.map fun _ ↦ n + t.clauseOperands.length + 1).map lookup =
      t.skip.map some := by
    cases hs : t.skip with
    | none => rfl
    | some skip =>
      rw [hs] at hskip
      exact congrArg some (leadsTo_singleton.mp hskip)
  simp only [Template.numbered, Template.map, Clause.map_numberedAll hclauses, hlimitLook,
    hskipLook]

/-- Each number of a template numbered from `n` leads back to its scalar in the list of operands. -/
theorem Template.map_getElem?_numbered (n : Nat) (t : Template α) :
    ((t.numbered n).map fun k ↦ t.operands[k - n]?) = t.map some :=
  Template.map_numbered (leadsTo_getElem? t.operands n)

end RowFilter.Sql
