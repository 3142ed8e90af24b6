import RowFilter.Proofs.Filter.Reading
import RowFilter.Proofs.Sql.Truth

/-!
What a filter means and what its text says. A filter means the conjunction of its entries, a group
the disjunction of its alternatives, and an alternative the conjunction of its comparisons. The text
of a group lists the comparisons of all alternatives with OR between them, so it says less than is
meant when an alternative has several comparisons. `Filter.whereTruth?_compile` gives the truth of
the text in every case and the exact condition under which it is the truth of the filter.
-/

set_option autoImplicit false

namespace RowFilter

open Sql

/-! ### Meaning -/

section Meaning

variable (w : Predicate Scalar → Truth)

/-- All comparisons of a condition are meant to hold, also within a group. -/
def FieldCondition.truth (c : FieldCondition) : Truth := .all (c.predicates.map w)

/-- A group is meant to hold when one of its alternatives does; without any it asks for nothing. -/
def Entry.truth : Entry → Truth
  | .field c => c.truth w
  | .anyOf [] => .yes
  | .anyOf cs => .any (cs.map (FieldCondition.truth w))

def Filter.truth (f : Filter) : Truth := .all (f.entries.map (Entry.truth w))

/-- What the text says of an entry: of a group, that one of all its predicates holds. -/
def Entry.textTruth : Entry → Truth
  | .field c => c.truth w
  | .anyOf cs =>
    if (Entry.anyOf cs).predicates = [] then .yes else .any ((Entry.anyOf cs).predicates.map w)

def Filter.textTruth (f : Filter) : Truth := .all (f.entries.map (Entry.textTruth w))

end Meaning

/-! ### Requirements with options -/

section Options

variable {ι : Type}

/-- All required items are in, and of each group one option as a whole. -/
def Meets (holds : ι → Prop) (required : List ι) (groups : List (List (List ι))) : Prop :=
  (∀ i ∈ required, holds i) ∧ ∀ g ∈ groups, ∃ o ∈ g, ∀ i ∈ o, holds i

/-- However one option is chosen of each group of the first list, the chosen options and the
required items together have all of some option of each group of the second. -/
def Covers (required : List ι) (first second : List (List (List ι))) : Prop :=
  ∀ chosen, List.Forall₂ (· ∈ ·) chosen first →
    ∀ g ∈ second, ∃ o ∈ g, o ⊆ required ++ chosen.flatten

theorem exists_choice {holds : ι → Prop} {groups : List (List (List ι))}
    (h : ∀ g ∈ groups, ∃ o ∈ g, ∀ i ∈ o, holds i) :
    ∃ chosen, List.Forall₂ (· ∈ ·) chosen groups ∧ ∀ i ∈ chosen.flatten, holds i := by
  induction groups with
  | nil => exact ⟨[], .nil, List.forall_mem_nil _⟩
  | cons g rest ih =>
    obtain ⟨⟨o, ho, hholds⟩, hrest⟩ := List.forall_mem_cons.mp h
    obtain ⟨chosen, hchosen, hall⟩ := ih hrest
    refine ⟨o :: chosen, .cons ho hchosen, ?_⟩
    rw [List.flatten_cons]
    exact List.forall_mem_append.mpr ⟨hholds, hall⟩

theorem Covers.meets {required : List ι} {first second : List (List (List ι))}
    (h : Covers required first second) {holds : ι → Prop} (hfirst : Meets holds required first) :
    Meets holds required second := by
  refine ⟨hfirst.1, fun g hg ↦ ?_⟩
  obtain ⟨chosen, hchosen, hall⟩ := exists_choice hfirst.2
  obtain ⟨o, ho, hsubset⟩ := h chosen hchosen g hg
  exact ⟨o, ho, fun i hi ↦ List.forall_mem_append.mpr ⟨hfirst.1, hall⟩ i (hsubset hi)⟩

/-- Conversely, a choice of options is tried by letting nothing hold but what it needs. -/
theorem covers_of_forall_meets {required : List ι} {first second : List (List (List ι))}
    (h : ∀ holds : ι → Prop, Meets holds required first → Meets holds required second) :
    Covers required first second := by
  intro chosen hchosen g hg
  have hfirst : Meets (· ∈ required ++ chosen.flatten) required first := by
    refine ⟨fun i hi ↦ List.mem_append_left _ hi, fun g hg ↦ ?_⟩
    obtain ⟨o, hmem, ho⟩ := exists_mem_of_forall₂ hchosen hg
    exact ⟨o, ho, fun i hi ↦ List.mem_append_right _ (List.mem_flatten.mpr ⟨o, hmem, hi⟩)⟩
  exact (h _ hfirst).2 g hg

theorem covers_self (required : List ι) (groups : List (List (List ι))) :
    Covers required groups groups := covers_of_forall_meets fun _ ↦ id

end Options

/-! ### The groups of a filter -/

/-- The predicates that hold by themselves. -/
def Entry.required : Entry → List (Predicate Scalar)
  | .field c => c.predicates
  | .anyOf _ => []

/-- The options that a group is meant to have: its alternatives. -/
def Entry.options : Entry → List (List (List (Predicate Scalar)))
  | .field _ => []
  | .anyOf [] => []
  | .anyOf cs => [cs.map FieldCondition.predicates]

/-- The options that the text of a group gives: each predicate alone. -/
def Entry.textOptions : Entry → List (List (List (Predicate Scalar)))
  | .field _ => []
  | .anyOf cs =>
    if (Entry.anyOf cs).predicates = [] then [] else [(Entry.anyOf cs).predicates.map ([·])]

/-- The text keeps the meaning when each listed predicate of a group brings a whole alternative with
it and each alternative brings a listed predicate with it, given the required predicates and what
was chosen of other groups. -/
def Filter.KeepsMeaning (f : Filter) : Prop :=
  Covers (f.entries.flatMap Entry.required) (f.entries.flatMap Entry.textOptions)
      (f.entries.flatMap Entry.options) ∧
    Covers (f.entries.flatMap Entry.required) (f.entries.flatMap Entry.options)
      (f.entries.flatMap Entry.textOptions)

/-! ### Truth as requirements -/

section Bounds

variable {w : Predicate Scalar → Truth} {n : Nat}

theorem meets_flatMap_iff {ι : Type} {holds : ι → Prop} {entries : List Entry}
    {required : Entry → List ι} {groups : Entry → List (List (List ι))} :
    Meets holds (entries.flatMap required) (entries.flatMap groups) ↔
      ∀ e ∈ entries, Meets holds (required e) (groups e) := by
  simp only [Meets, List.forall_mem_flatMap]
  constructor
  · rintro ⟨hrequired, hgroups⟩ e he
    exact ⟨hrequired e he, hgroups e he⟩
  · intro h
    exact ⟨fun e he ↦ (h e he).1, fun e he ↦ (h e he).2⟩

theorem FieldCondition.le_rank_truth_iff (hn : n ≤ 2) (c : FieldCondition) :
    n ≤ (c.truth w).rank ↔ ∀ p ∈ c.predicates, n ≤ (w p).rank := by
  rw [FieldCondition.truth, Truth.le_rank_all_iff hn, List.forall_mem_map]

theorem meets_field_iff {holds : Predicate Scalar → Prop} (c : FieldCondition) :
    Meets holds c.predicates [] ↔ ∀ p ∈ c.predicates, holds p :=
  and_iff_left (List.forall_mem_nil _)

theorem meets_group_iff {holds : Predicate Scalar → Prop} {ι : Type} (items : List ι)
    (option : ι → List (Predicate Scalar)) :
    Meets holds [] [items.map option] ↔ ∃ a ∈ items, ∀ p ∈ option a, holds p := by
  simp only [Meets, List.forall_mem_singleton, List.mem_map, exists_exists_and_eq_and]
  exact and_iff_right (List.forall_mem_nil _)

theorem Entry.le_rank_truth_iff (hpos : 0 < n) (hn : n ≤ 2) (e : Entry) :
    n ≤ (e.truth w).rank ↔ Meets (fun p ↦ n ≤ (w p).rank) e.required e.options := by
  cases e with
  | field c => exact (c.le_rank_truth_iff hn).trans (meets_field_iff c).symm
  | anyOf cs =>
    cases cs with
    | nil => exact iff_of_true hn ⟨List.forall_mem_nil _, List.forall_mem_nil _⟩
    | cons c rest =>
      show n ≤ (Truth.any ((c :: rest).map (FieldCondition.truth w))).rank ↔
        Meets _ [] [(c :: rest).map FieldCondition.predicates]
      rw [Truth.le_rank_any_iff hpos, meets_group_iff]
      simp only [List.mem_map, exists_exists_and_eq_and, FieldCondition.le_rank_truth_iff hn]

theorem Entry.le_rank_textTruth_iff (hpos : 0 < n) (hn : n ≤ 2) (e : Entry) :
    n ≤ (e.textTruth w).rank ↔ Meets (fun p ↦ n ≤ (w p).rank) e.required e.textOptions := by
  cases e with
  | field c => exact (c.le_rank_truth_iff hn).trans (meets_field_iff c).symm
  | anyOf cs =>
    rw [Entry.textTruth, Entry.textOptions, Entry.required]
    by_cases hnone : (Entry.anyOf cs).predicates = []
    · rw [if_pos hnone, if_pos hnone]
      exact iff_of_true hn ⟨List.forall_mem_nil _, List.forall_mem_nil _⟩
    · rw [if_neg hnone, if_neg hnone, Truth.le_rank_any_iff hpos, meets_group_iff]
      simp only [List.mem_map, exists_exists_and_eq_and, List.forall_mem_singleton]

theorem Filter.le_rank_truth_iff (hpos : 0 < n) (hn : n ≤ 2) (f : Filter) :
    n ≤ (f.truth w).rank ↔ Meets (fun p ↦ n ≤ (w p).rank) (f.entries.flatMap Entry.required)
      (f.entries.flatMap Entry.options) := by
  rw [Filter.truth, Truth.le_rank_all_iff hn, List.forall_mem_map, meets_flatMap_iff]
  exact forall₂_congr fun e _ ↦ e.le_rank_truth_iff hpos hn

theorem Filter.le_rank_textTruth_iff (hpos : 0 < n) (hn : n ≤ 2) (f : Filter) :
    n ≤ (f.textTruth w).rank ↔ Meets (fun p ↦ n ≤ (w p).rank) (f.entries.flatMap Entry.required)
      (f.entries.flatMap Entry.textOptions) := by
  rw [Filter.textTruth, Truth.le_rank_all_iff hn, List.forall_mem_map, meets_flatMap_iff]
  exact forall₂_congr fun e _ ↦ e.le_rank_textTruth_iff hpos hn

end Bounds

/-- Text and meaning agree under every assignment exactly when the text keeps the meaning. -/
theorem Filter.forall_textTruth_eq_iff (f : Filter) :
    (∀ w, f.textTruth w = f.truth w) ↔ f.KeepsMeaning := by
  constructor
  · intro h
    classical
    -- An assignment of two values turns a set of predicates into bounds on the truth of both.
    have hbound (holds : Predicate Scalar → Prop) (p : Predicate Scalar) :
        1 ≤ (if holds p then Truth.yes else Truth.no).rank ↔ holds p := by
      by_cases hp : holds p <;> simp [hp, Truth.rank]
    have hmeets (holds : Predicate Scalar → Prop) :
        Meets holds (f.entries.flatMap Entry.required) (f.entries.flatMap Entry.textOptions) ↔
          Meets holds (f.entries.flatMap Entry.required) (f.entries.flatMap Entry.options) := by
      have htext := f.le_rank_textTruth_iff (n := 1) (by decide) (by decide)
        (w := fun p ↦ if holds p then Truth.yes else Truth.no)
      have hmeaning := f.le_rank_truth_iff (n := 1) (by decide) (by decide)
        (w := fun p ↦ if holds p then Truth.yes else Truth.no)
      simp only [hbound] at htext hmeaning
      rw [← htext, ← hmeaning, h]
    exact ⟨covers_of_forall_meets fun holds ↦ (hmeets holds).mp,
      covers_of_forall_meets fun holds ↦ (hmeets holds).mpr⟩
  · rintro ⟨hforward, hbackward⟩ w
    refine Truth.eq_of_forall_le_rank_iff fun n hpos hn ↦ ?_
    rw [f.le_rank_textTruth_iff hpos hn, f.le_rank_truth_iff hpos hn]
    exact ⟨hforward.meets, hbackward.meets⟩

/-- A text whose groups have alternatives with one comparison each keeps the meaning. -/
theorem Filter.keepsMeaning_of_one_predicate {f : Filter}
    (h : ∀ cs, .anyOf cs ∈ f.entries → ∀ c ∈ cs, ∃ p, c.predicates = [p]) : f.KeepsMeaning := by
  have hentry : ∀ e ∈ f.entries, e.options = e.textOptions := by
    intro e he
    cases e with
    | field c => rfl
    | anyOf cs =>
      have hcs := h cs he
      have hlisted : cs.map FieldCondition.predicates =
          (cs.flatMap FieldCondition.predicates).map ([·]) := by
        clear he
        induction cs with
        | nil => rfl
        | cons c rest ih =>
          obtain ⟨⟨p, hp⟩, hrest⟩ := List.forall_mem_cons.mp hcs
          rw [List.map_cons, List.flatMap_cons, hp, ih hrest]
          rfl
      cases cs with
      | nil => rfl
      | cons c rest =>
        obtain ⟨⟨p, hp⟩, -⟩ := List.forall_mem_cons.mp hcs
        have hne : (Entry.anyOf (c :: rest)).predicates ≠ [] := by
          simp [Entry.predicates, hp]
        rw [Entry.textOptions, if_neg hne, Entry.predicates, ← hlisted]
        rfl
  have hgroups : f.entries.flatMap Entry.options = f.entries.flatMap Entry.textOptions :=
    List.flatMap_congr hentry
  rw [KeepsMeaning, hgroups]
  exact ⟨covers_self _ _, covers_self _ _⟩

/-! ### The truth of a compiled filter -/

/-- The conjuncts of the text are those of the entries in another order. -/
theorem Filter.all_conjuncts_boundTail (f : Filter) (aliases : Option AliasMap)
    (v : Term Scalar → Truth) :
    Truth.all ((f.boundTail aliases).conjuncts.map (Conjunct.truth v)) =
      f.textTruth (v ∘ Term.ofPredicate (Column.of aliases)) := by
  have hentry {n : Nat} (hn : n ≤ 2) (e : Entry) :
      ((∀ c ∈ e.groups (Column.of aliases), n ≤ (c.truth v).rank) ∧
          ∀ c ∈ e.singles (Column.of aliases), n ≤ (c.truth v).rank) ↔
        n ≤ (e.textTruth (v ∘ Term.ofPredicate (Column.of aliases))).rank := by
    cases e with
    | field c =>
      rw [Entry.textTruth, FieldCondition.le_rank_truth_iff hn, Entry.groups, Entry.singles,
        List.forall_mem_map]
      exact and_iff_right (List.forall_mem_nil _)
    | anyOf cs =>
      rw [Entry.textTruth, Entry.groups, Entry.singles]
      by_cases hnone : (Entry.anyOf cs).predicates = []
      · rw [if_pos hnone, if_pos hnone]
        exact iff_of_true ⟨List.forall_mem_nil _, List.forall_mem_nil _⟩ hn
      · rw [if_neg hnone, if_neg hnone, List.forall_mem_singleton, Conjunct.truth, List.map_map]
        exact and_iff_left (List.forall_mem_nil _)
  refine Truth.eq_of_forall_le_rank_iff fun n _ hn ↦ ?_
  rw [Truth.le_rank_all_iff hn, Filter.textTruth, Truth.le_rank_all_iff hn, List.forall_mem_map,
    List.forall_mem_map, boundTail, List.forall_mem_append, List.forall_mem_flatMap,
    List.forall_mem_flatMap]
  constructor
  · rintro ⟨hgroups, hsingles⟩ e he
    exact (hentry hn e).mp ⟨hgroups e he, hsingles e he⟩
  · intro h
    exact ⟨fun e he ↦ ((hentry hn e).mpr (h e he)).1, fun e he ↦ ((hentry hn e).mpr (h e he)).2⟩

/-- Whatever truth is assigned to the predicates, the condition in the text of a compiled filter
comes to a truth value, in which a group holds as soon as one predicate of one alternative does.
That value is the meaning of the filter under every assignment exactly when the text keeps the
meaning. -/
theorem Filter.whereTruth?_compile (f : Filter) (base : String) (aliases : Option AliasMap) :
    ∃ tail : String, (f.compile base aliases).sql = Text.trim base ++ gap base ++ tail ∧
      (∀ v, whereTruth? (f.compile base aliases).values v tail.toList =
        some (f.textTruth (v ∘ Term.ofPredicate (Column.of aliases)))) ∧
      ((∀ v, whereTruth? (f.compile base aliases).values v tail.toList =
          some (f.truth (v ∘ Term.ofPredicate (Column.of aliases)))) ↔ f.KeepsMeaning) := by
  have htruth (v : Term Scalar → Truth) :
      whereTruth? (f.compile base aliases).values v (f.compile "" aliases).sql.toList =
        some (f.textTruth (v ∘ Term.ofPredicate (Column.of aliases))) := by
    rw [toList_sql_tail, ← f.all_conjuncts_boundTail aliases v]
    exact Tail.whereTruth?_text (Tail.filled_ofTemplate _ _) (f.map_tail base aliases)
  refine ⟨(f.compile "" aliases).sql, f.sql_compile base aliases, htruth, ?_⟩
  rw [← f.forall_textTruth_eq_iff]
  simp only [htruth, Option.some.injEq]
  constructor
  · -- A column keeps its field, so that any assignment to predicates is one to terms.
    intro h w
    exact h fun t ↦ w ⟨t.column.field, t.test⟩
  · intro h v
    exact h _

/-- Two bounds on one field in an alternative are written as alternatives of their own. -/
theorem Filter.not_forall_whereTruth?_eq_truth :
    ¬ ∀ (document : Json) (f : Filter) (base tail : String) (aliases : Option AliasMap),
      Filter.ofJson document = .ok f →
        (f.compile base aliases).sql = Text.trim base ++ gap base ++ tail →
          ∀ v, whereTruth? (f.compile base aliases).values v tail.toList =
            some (f.truth (v ∘ Term.ofPredicate (Column.of aliases))) := by
  intro h
  have hdocument : Filter.ofJson (.object [("$or", .array
      [.object [("a", .object [("$gt", .scalar (.int 1)), ("$lt", .scalar (.int 5))])],
        .object [("b", .scalar (.int 2))]])]) =
      .ok ⟨[.anyOf [⟨⟨"a", by decide⟩, .compare [⟨.gt, .int 1⟩, ⟨.lt, .int 5⟩]⟩,
        ⟨⟨"b", by decide⟩, .equals (.int 2)⟩]], Pagination.empty⟩ := rfl
  have htruth := h _ _ "SELECT 1" "WHERE (a > $1 OR a < $2 OR b = $3) LIMIT $4" none hdocument rfl
    fun t ↦ if t.test = .compare .gt (.int 1) then .yes else .no
  have htext : some Truth.yes = some Truth.no := htruth
  cases htext

end RowFilter
