import RowFilter.Compile
import RowFilter.Proofs.Sql.Numbering
import Mathlib.Data.List.Forall2

/-!
Values never reach the text of a statement. Two documents have one shape when they have the same
names and containers in the same places and nulls in the same places. Every function between a
document and its statement is shown to take inputs that differ in scalars alone to outcomes that
differ in scalars alone: the same error, or results with the same holes. A hole holds no value, so
the texts are equal (`compileDocument_sameOutcome`). What a scalar can tell is whether it is null
and, as a sort direction, whether it is the number one.
-/

set_option autoImplicit false

namespace RowFilter

/-! ### Documents of one shape -/

/-- Two members of one name with related values. -/
inductive SameName (R : Json → Json → Prop) : String × Json → String × Json → Prop
  | intro {name : String} {v w : Json} (h : R v w) : SameName R (name, v) (name, w)

namespace Json

/-- Two documents that differ only in scalars that are not null. -/
inductive SameShape : Json → Json → Prop
  | null : SameShape .null .null
  | scalar {s t : Scalar} (hs : s ≠ .null) (ht : t ≠ .null) : SameShape (.scalar s) (.scalar t)
  | array {xs ys : List Json} (h : List.Forall₂ SameShape xs ys) : SameShape (.array xs) (.array ys)
  | object {ms ns : List (String × Json)} (h : List.Forall₂ (SameName SameShape) ms ns) :
    SameShape (.object ms) (.object ns)

/-- Each direction of the one sort directive is the number one exactly when that of the other is. -/
def SameDirections : Json → Json → Prop
  | .object ds, .object es =>
    List.Forall₂ (fun d e ↦ d.2.toInt? = some 1 ↔ e.2.toInt? = some 1) ds es
  | _, _ => True

/-- The sort directive of a filter document. -/
def sort? : Json → Option Json
  | .object members => Assoc.get? MemberKind.sortKey members
  | _ => none

/-- Two filter documents that differ only in what no text may depend on. -/
structure SameButScalars (v w : Json) : Prop where
  shape : v.SameShape w
  directions : ∀ x ∈ v.sort?, ∀ y ∈ w.sort?, x.SameDirections y

end Json

/-! ### Outcomes that agree -/

section Outcomes

variable {ε α β γ δ : Type}

/-- The same error, or two results that are related. -/
inductive SameOutcome (R : α → β → Prop) : Except ε α → Except ε β → Prop
  | error (e : ε) : SameOutcome R (.error e) (.error e)
  | ok {a : α} {b : β} (h : R a b) : SameOutcome R (.ok a) (.ok b)

namespace SameOutcome

variable {R : α → β → Prop} {S : γ → δ → Prop} {x : Except ε α} {y : Except ε β}

theorem bind {f : α → Except ε γ} {g : β → Except ε δ} (h : SameOutcome R x y)
    (hfg : ∀ a b, R a b → SameOutcome S (f a) (g b)) : SameOutcome S (x >>= f) (y >>= g) := by
  cases h with
  | error e => exact .error e
  | ok h => exact hfg _ _ h

theorem map {f : α → γ} {g : β → δ} (h : SameOutcome R x y) (hfg : ∀ a b, R a b → S (f a) (g b)) :
    SameOutcome S (x.map f) (y.map g) := by
  cases h with
  | error e => exact .error e
  | ok h => exact .ok (hfg _ _ h)

theorem mapM {f : α → Except ε γ} {g : β → Except ε δ}
    (hfg : ∀ a b, R a b → SameOutcome S (f a) (g b)) {as : List α} {bs : List β}
    (h : List.Forall₂ R as bs) : SameOutcome (List.Forall₂ S) (as.mapM f) (bs.mapM g) := by
  induction h with
  | nil => exact .ok .nil
  | cons hab _ ih =>
    rw [List.mapM_cons, List.mapM_cons]
    refine (hfg _ _ hab).bind fun c d hcd ↦ ih.bind fun cs ds hrest ↦ ?_
    exact .ok (.cons hcd hrest)

end SameOutcome

end Outcomes

/-! ### Templates with the same holes -/

namespace Sql

variable {α β : Type}

theorem Predicate.numberedAll_map (f : α → β) (n : Nat) (ps : List (Predicate α)) :
    numberedAll n (ps.map (Predicate.map f)) = numberedAll n ps := by
  induction ps generalizing n with
  | nil => rfl
  | cons p rest ih =>
    obtain ⟨field, test⟩ := p
    cases test <;> exact congrArg (_ :: ·) (ih _)

theorem Clause.operands_map (f : α → β) (c : Clause α) : (c.map f).operands = c.operands.map f := by
  have hpredicate (p : Predicate α) : (p.map f).operands = p.operands.map f := by
    obtain ⟨field, test⟩ := p
    cases test <;> rfl
  have hpredicates : (c.map f).predicates = c.predicates.map (Predicate.map f) := by
    cases c <;> rfl
  simp only [operands, hpredicates, List.flatMap_map, List.map_flatMap, hpredicate]

theorem Clause.numberedAll_map (f : α → β) (n : Nat) (cs : List (Clause α)) :
    numberedAll n (cs.map (Clause.map f)) = numberedAll n cs := by
  induction cs generalizing n with
  | nil => rfl
  | cons c rest ih =>
    have hc : (c.map f).numbered n = c.numbered n := by
      cases c with
      | all ps => exact congrArg Clause.all (Predicate.numberedAll_map f n ps)
      | any ps => exact congrArg Clause.any (Predicate.numberedAll_map f n ps)
    rw [List.map_cons, numberedAll, numberedAll, hc, operands_map, List.length_map, ih]

theorem Template.clauseOperands_map (f : α → β) (t : Template α) :
    (t.map f).clauseOperands = t.clauseOperands.map f := by
  simp only [clauseOperands, map, List.flatMap_map, List.map_flatMap, Clause.operands_map]

theorem Template.length_operands_map (f : α → β) (t : Template α) :
    (t.map f).operands.length = t.operands.length := by
  rw [operands, operands, clauseOperands_map, map]
  cases t.skip <;> simp

/-- Numbering does not look at what the holes hold. -/
theorem Template.numbered_map (f : α → β) (n : Nat) (t : Template α) :
    (t.map f).numbered n = t.numbered n := by
  rw [numbered, numbered, clauseOperands_map, List.length_map, map, Clause.numberedAll_map,
    Option.map_map]
  rfl

/-- Two templates that are equal but for what their holes hold. -/
def Template.SameHoles (s t : Template α) : Prop := (s.map fun _ ↦ ()) = t.map fun _ ↦ ()

end Sql

/-! ### What a document is read as -/

open Sql

/-- Two conditions on one field that ask for the same tests of maybe different values. -/
def FieldCondition.SameHoles (c d : FieldCondition) : Prop :=
  (Predicate.ofFieldCondition c).map (Predicate.map fun _ ↦ ()) =
    (Predicate.ofFieldCondition d).map (Predicate.map fun _ ↦ ())

def Entry.SameHoles (e f : Entry) : Prop :=
  ((Clause.ofEntry e).map fun _ ↦ ()) = (Clause.ofEntry f).map fun _ ↦ ()

/-- The same order of rows, and bounds in the same places. -/
def Pagination.SameHoles (p q : Pagination) : Prop :=
  p.sort = q.sort ∧ p.skip.isSome = q.skip.isSome

/-! ### Scalars that are not null -/

theorem Condition.ofScalar_of_ne_null {s : Scalar} (h : s ≠ .null) :
    Condition.ofScalar s = .equals s := by
  cases s with
  | null => exact absurd rfl h
  | bool b => rfl
  | number n => rfl
  | string t => rfl

theorem Sql.Test.ofCondition_equals {s : Scalar} (h : s ≠ .null) :
    Test.ofCondition (.equals s) = [.equals s] := by
  cases s with
  | null => exact absurd rfl h
  | bool b => rfl
  | number n => rfl
  | string t => rfl

theorem Sql.Test.ofComparison_of_ne_null {op : Operator} {s : Scalar} (h : s ≠ .null) :
    Test.ofComparison ⟨op, s⟩ = .compare op s := if_neg fun hs ↦ h hs.2

theorem FieldCondition.ofDisjunction_scalar {s : Scalar} (h : s ≠ .null) :
    FieldCondition.ofDisjunction (.scalar s) = .error .invalidDisjunction := by
  cases s with
  | null => exact absurd rfl h
  | bool b => rfl
  | number n => rfl
  | string t => rfl

theorem SortTerm.ofJson_scalar {s : Scalar} (h : s ≠ .null) :
    SortTerm.ofJson (.scalar s) = .error .invalidSort := by
  cases s with
  | null => exact absurd rfl h
  | bool b => rfl
  | number n => rfl
  | string t => rfl

/-! ### Conditions and alternatives -/

theorem Comparison.sameOutcome (field : Identifier) {m n : String × Json}
    (h : SameName Json.SameShape m n) :
    SameOutcome
      (fun c d ↦ ((Test.ofComparison c).map fun _ ↦ ()) = (Test.ofComparison d).map fun _ ↦ ())
      (Comparison.ofMember field m) (Comparison.ofMember field n) := by
  obtain ⟨h⟩ := h
  rename_i name v w
  unfold Comparison.ofMember
  cases hop : Operator.ofDirective? name with
  | none => exact .error _
  | some op =>
    cases h with
    | null => exact .ok rfl
    | scalar hs ht =>
      refine .ok ?_
      rw [Test.ofComparison_of_ne_null hs, Test.ofComparison_of_ne_null ht]
      rfl
    | array h => exact .error _
    | object h => exact .error _

theorem Condition.sameOutcome (field : Identifier) {v w : Json} (h : v.SameShape w) :
    SameOutcome (fun c d ↦ FieldCondition.SameHoles ⟨field, c⟩ ⟨field, d⟩)
      (Condition.ofJson field v) (Condition.ofJson field w) := by
  cases h with
  | null => exact .ok rfl
  | scalar hs ht =>
    rw [Condition.ofJson, Condition.ofJson, ofScalar_of_ne_null hs, ofScalar_of_ne_null ht]
    refine .ok ?_
    rw [FieldCondition.SameHoles, Predicate.ofFieldCondition, Predicate.ofFieldCondition,
      Test.ofCondition_equals hs, Test.ofCondition_equals ht]
    rfl
  | array h => exact .error _
  | object h =>
    refine (SameOutcome.mapM (fun _ _ hmn ↦ Comparison.sameOutcome field hmn) h).map ?_
    intro cs ds hcds
    unfold FieldCondition.SameHoles Predicate.ofFieldCondition Test.ofCondition
    induction hcds with
    | nil => rfl
    | cons hcd _ ih =>
      simp only [List.map_cons, Predicate.map, hcd]
      exact congrArg _ ih

theorem FieldCondition.sameOutcome {m n : String × Json} (h : SameName Json.SameShape m n) :
    SameOutcome FieldCondition.SameHoles (FieldCondition.ofMember m)
      (FieldCondition.ofMember n) := by
  obtain ⟨h⟩ := h
  rename_i name v w
  unfold FieldCondition.ofMember
  cases Identifier.ofFieldName name with
  | error e => exact .error e
  | ok field => exact (Condition.sameOutcome field h).bind fun _ _ hcd ↦ .ok hcd

/-- An alternative is read when it has one member, and its member decides everything else. -/
theorem FieldCondition.sameOutcome_alternative (index : Nat) {v w : Json} (h : v.SameShape w) :
    SameOutcome FieldCondition.SameHoles (FieldCondition.ofAlternative index v)
      (FieldCondition.ofAlternative index w) := by
  cases h with
  | null => exact .error _
  | scalar hs ht => exact .error _
  | array h => exact .error _
  | object h =>
    cases h with
    | nil => exact .error _
    | cons hmember hrest =>
      cases hrest with
      | nil => exact FieldCondition.sameOutcome hmember
      | cons hnext hrest => exact .error _

theorem FieldCondition.sameOutcome_alternatives (index : Nat) {xs ys : List Json}
    (h : List.Forall₂ Json.SameShape xs ys) :
    SameOutcome (List.Forall₂ FieldCondition.SameHoles) (FieldCondition.ofAlternatives index xs)
      (FieldCondition.ofAlternatives index ys) := by
  induction h generalizing index with
  | nil => exact .ok .nil
  | cons hitem _ ih =>
    refine (FieldCondition.sameOutcome_alternative index hitem).bind fun c d hcd ↦ ?_
    exact (ih (index + 1)).bind fun cs ds hrest ↦ .ok (.cons hcd hrest)

theorem Entry.sameHoles_anyOf {cs ds : List FieldCondition}
    (h : List.Forall₂ FieldCondition.SameHoles cs ds) :
    Entry.SameHoles (.anyOf cs) (.anyOf ds) := by
  refine congrArg Clause.any ?_
  rw [List.map_flatMap, List.map_flatMap]
  induction h with
  | nil => rfl
  | cons hcd _ ih => rw [List.flatMap_cons, List.flatMap_cons, hcd, ih]

/-- Members of one name and shape contribute the same kind of entry, if they contribute one. -/
theorem Entry.sameOutcome {m n : String × Json} (h : SameName Json.SameShape m n) :
    SameOutcome (Option.Rel Entry.SameHoles) (Entry.ofMember m) (Entry.ofMember n) := by
  have hfield := FieldCondition.sameOutcome h
  obtain ⟨h⟩ := h
  rename_i name v w
  unfold Entry.ofMember
  cases MemberKind.ofKey name with
  | pagination => exact .ok .none
  | disjunction =>
    cases h with
    | null => exact .ok .none
    | scalar hs ht =>
      dsimp only
      rw [FieldCondition.ofDisjunction_scalar hs, FieldCondition.ofDisjunction_scalar ht]
      exact .error _
    | array h =>
      refine SameOutcome.map (R := Option.Rel (List.Forall₂ FieldCondition.SameHoles)) ?_ ?_
      · exact (FieldCondition.sameOutcome_alternatives 0 h).map fun _ _ hcds ↦ .some hcds
      · intro a b hab
        cases hab with
        | none => exact .none
        | some hcds => exact .some (Entry.sameHoles_anyOf hcds)
    | object h => exact .error _
  | field => exact hfield.map fun c d hcd ↦ .some (congrArg Clause.all hcd)

/-! ### The order of rows and the page -/

theorem Assoc.rel_get? {R : Json → Json → Prop} {ms ns : List (String × Json)}
    (h : List.Forall₂ (SameName R) ms ns) (key : String) :
    Option.Rel R (Assoc.get? key ms) (Assoc.get? key ns) := by
  induction h with
  | nil => exact .none
  | cons hmember _ ih =>
    obtain ⟨hvalue⟩ := hmember
    unfold Assoc.get?
    split_ifs
    · exact .some hvalue
    · exact ih

theorem Pagination.sameOutcome_bound (key : String) {ms ns : List (String × Json)}
    (h : List.Forall₂ (SameName Json.SameShape) ms ns) :
    SameOutcome (fun a b ↦ a.isSome = b.isSome) (Pagination.bound key ms)
      (Pagination.bound key ns) := by
  have hvalue := Assoc.rel_get? h key
  unfold Pagination.bound
  generalize Assoc.get? key ms = x, Assoc.get? key ns = y at hvalue
  cases hvalue with
  | none => exact .ok rfl
  | some hvalue =>
    cases hvalue with
    | null => exact .ok rfl
    | scalar hs ht => exact .ok rfl
    | array h => exact .error _
    | object h => exact .error _

theorem SortTerm.sameOutcome {m n : String × Json} (hname : m.1 = n.1)
    (hone : m.2.toInt? = some 1 ↔ n.2.toInt? = some 1) :
    SameOutcome Eq (SortTerm.ofMember m) (SortTerm.ofMember n) := by
  unfold SortTerm.ofMember Direction.ofJson
  rw [hname]
  cases Identifier.ofString? n.1 with
  | none => exact .error _
  | some field => exact .ok (by simp only [hone])

theorem SortTerm.sameOutcome_ofJson {v w : Json} (h : v.SameShape w)
    (hdirections : v.SameDirections w) :
    SameOutcome Eq (SortTerm.ofJson v) (SortTerm.ofJson w) := by
  cases h with
  | null => exact .ok rfl
  | scalar hs ht =>
    rw [SortTerm.ofJson_scalar hs, SortTerm.ofJson_scalar ht]
    exact .error _
  | array h => exact .error _
  | object h =>
    have hmembers := List.Forall₂.mp (S := fun m n ↦ m.1 = n.1 ∧
      (m.2.toInt? = some 1 ↔ n.2.toInt? = some 1)) ?_ h hdirections
    · have hterms := SameOutcome.mapM (fun _ _ hmn ↦ SortTerm.sameOutcome hmn.1 hmn.2) hmembers
      rwa [List.forall₂_eq_eq_eq] at hterms
    · rintro m n ⟨-⟩ hone
      exact ⟨rfl, hone⟩

theorem Pagination.sameOutcome {ms ns : List (String × Json)}
    (h : List.Forall₂ (SameName Json.SameShape) ms ns)
    (hdirections : ∀ x ∈ Assoc.get? MemberKind.sortKey ms,
      ∀ y ∈ Assoc.get? MemberKind.sortKey ns, x.SameDirections y) :
    SameOutcome Pagination.SameHoles (Pagination.ofMembers ms) (Pagination.ofMembers ns) := by
  unfold Pagination.ofMembers
  refine (Pagination.sameOutcome_bound _ h).bind fun limit limit' _ ↦ ?_
  refine (Pagination.sameOutcome_bound _ h).bind fun skip skip' hskip ↦ ?_
  have hsort := Assoc.rel_get? h MemberKind.sortKey
  generalize Assoc.get? MemberKind.sortKey ms = x, Assoc.get? MemberKind.sortKey ns = y
    at hsort hdirections
  cases hsort with
  | none => exact .ok ⟨rfl, hskip⟩
  | some hsort =>
    refine (SortTerm.sameOutcome_ofJson hsort (hdirections _ rfl _ rfl)).bind ?_
    rintro terms _ rfl
    exact .ok ⟨rfl, hskip⟩

/-! ### Filters and statements -/

theorem Filter.sameHoles {es fs : List (Option Entry)} {p q : Pagination}
    (hentries : List.Forall₂ (Option.Rel Entry.SameHoles) es fs) (hpage : p.SameHoles q) :
    (Template.ofFilter ⟨es.filterMap id, p⟩).SameHoles
      (Template.ofFilter ⟨fs.filterMap id, q⟩) := by
  have hclauses : ((es.filterMap id).map Clause.ofEntry).map (Clause.map fun _ ↦ ()) =
      ((fs.filterMap id).map Clause.ofEntry).map (Clause.map fun _ ↦ ()) := by
    induction hentries with
    | nil => rfl
    | cons hentry _ ih =>
      cases hentry with
      | none => exact ih
      | some hentry => exact congrArg₂ List.cons hentry ih
  obtain ⟨hsort, hskip⟩ := hpage
  have hbound : (p.skip.map fun _ ↦ ()) = q.skip.map fun _ ↦ () := by
    cases hp : p.skip <;> cases hq : q.skip <;> simp [hp, hq] at hskip ⊢
  unfold Template.SameHoles Template.ofFilter Template.map
  rw [hclauses, hsort, hbound]

theorem Filter.sameOutcome {v w : Json} (h : v.SameButScalars w) :
    SameOutcome (fun f g ↦ (Template.ofFilter f).SameHoles (Template.ofFilter g))
      (Filter.ofJson v) (Filter.ofJson w) := by
  obtain ⟨hshape, hdirections⟩ := h
  cases hshape with
  | null => exact .error _
  | scalar hs ht => exact .error _
  | array h => exact .error _
  | object h =>
    refine (SameOutcome.mapM (fun _ _ hmn ↦ Entry.sameOutcome hmn) h).bind fun es fs hentries ↦ ?_
    exact (Pagination.sameOutcome h hdirections).bind fun p q hpage ↦
      .ok (Filter.sameHoles hentries hpage)

/-- Filters whose templates have the same holes compile to one text and equally many values. -/
theorem Filter.compile_of_sameHoles {f g : Filter}
    (h : (Template.ofFilter f).SameHoles (Template.ofFilter g)) (base : String)
    (aliases : Option AliasMap) :
    (f.compile base aliases).sql = (g.compile base aliases).sql ∧
      (f.compile base aliases).values.length = (g.compile base aliases).values.length := by
  have hnumbered : (Template.ofFilter f).numbered firstPlaceholder =
      (Template.ofFilter g).numbered firstPlaceholder := by
    rw [← Template.numbered_map fun _ ↦ (), h, Template.numbered_map]
  constructor
  · simp only [Filter.compile, hnumbered]
  · show (Template.ofFilter f).operands.length = (Template.ofFilter g).operands.length
    rw [← Template.length_operands_map fun _ ↦ (), h, Template.length_operands_map]

/-- Two documents that differ only in scalars, where nulls stay nulls and the directions of the
order stay what they are, are both rejected with one error or both compiled to one text with equally
many values. -/
theorem compileDocument_sameOutcome {v w : Json} (h : v.SameButScalars w) (base : String)
    (aliases : Option AliasMap) :
    SameOutcome (fun q r ↦ q.sql = r.sql ∧ q.values.length = r.values.length)
      (compileDocument base v aliases) (compileDocument base w aliases) := by
  have hfilter := Filter.sameOutcome h
  unfold compileDocument
  generalize Filter.ofJson v = x, Filter.ofJson w = y at hfilter
  cases hfilter with
  | error e => exact .error _
  | ok hholes => exact .ok (Filter.compile_of_sameHoles hholes base aliases)

theorem compileDocument_sameOutcome_of_other_values :
    let first : Json := .object [("a", .object [("$gt", .int 1), ("$ne", .null)]),
      ("$or", .array [.object [("b", .string "x")], .object [("c", .null)]]),
      ("$sort", .object [("d", .int 1), ("e", .int 2)]), ("$limit", .int 5)]
    let second : Json := .object [("a", .object [("$gt", .string "1 OR 1"), ("$ne", .null)]),
      ("$or", .array [.object [("b", .bool true)], .object [("c", .null)]]),
      ("$sort", .object [("d", .int 1), ("e", .string "ASC")]), ("$limit", .string "; --")]
    first.SameButScalars second ∧
      SameOutcome (fun q r ↦ q.sql = r.sql ∧ q.values.length = r.values.length)
        (compileDocument "SELECT 1" first none) (compileDocument "SELECT 1" second none) ∧
      compileDocument "SELECT 1" second none = .ok ⟨"SELECT 1 WHERE (b = $2 OR c IS NULL) AND " ++
        "a > $1 AND a IS NOT NULL ORDER BY d ASC, e DESC LIMIT $3",
          [.string "1 OR 1", .bool true, .string "; --"]⟩ := by
  intro first second
  have h : first.SameButScalars second := by
    constructor
    · refine .object (.cons ⟨.object (.cons ⟨.scalar ?_ ?_⟩ (.cons ⟨.null⟩ .nil))⟩ (.cons ⟨.array
        (.cons (.object (.cons ⟨.scalar ?_ ?_⟩ .nil)) (.cons (.object (.cons ⟨.null⟩ .nil)) .nil))⟩
          (.cons ⟨.object (.cons ⟨.scalar ?_ ?_⟩ (.cons ⟨.scalar ?_ ?_⟩ .nil))⟩
            (.cons ⟨.scalar ?_ ?_⟩ .nil))))
      all_goals decide
    · rintro x ⟨⟩ y ⟨⟩
      exact .cons (by decide) (.cons (by decide) .nil)
  exact ⟨h, compileDocument_sameOutcome h _ _, rfl⟩

end RowFilter
