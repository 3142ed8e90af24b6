import RowFilter.Filter.Stored
import RowFilter.Sql.Query

/-!
Storing a filter and restoring it. A stored filter is restored as it was, but for its bounds: null
stands for a bound that was supplied as null and for one that was left out, and is restored as the
latter. Null keeps its place as an operand and as the test for null. What was restored has no bound
of null, so from then on it is stored and restored without a change (`Filter.store_round_trip`).
-/

set_option autoImplicit false

namespace RowFilter

namespace Pagination

/-- The page as it is when a bound of null counts as left out. -/
def withoutNullBounds (p : Pagination) : Pagination :=
  { p with limit := p.limit.filter (· ≠ .null), skip := p.skip.filter (· ≠ .null) }

theorem withoutNullBounds_eq_self {p : Pagination} (hlimit : p.limit ≠ some .null)
    (hskip : p.skip ≠ some .null) : p.withoutNullBounds = p := by
  have hfilter {bound : Option Scalar} (h : bound ≠ some .null) :
      bound.filter (· ≠ .null) = bound := by
    cases bound with
    | none => rfl
    | some s =>
      have hs : s ≠ .null := fun hnull ↦ h (congrArg some hnull)
      simp [hs]
  rw [withoutNullBounds, hfilter hlimit, hfilter hskip]

theorem restoreBound?_storeBound (bound : Option Scalar) :
    restoreBound? (some (storeBound bound)) = some (bound.filter (· ≠ .null)) := by
  cases bound with
  | none => rfl
  | some s => cases s <;> rfl

/-- No way of writing a bound restores a null. -/
theorem ne_null_of_restoreBound? {value : Option Json} {bound : Option Scalar}
    (h : restoreBound? value = some bound) : bound ≠ some .null := by
  unfold restoreBound? at h
  split at h
  · cases h
    exact Option.some_ne_none _ |>.symm
  · cases h
    exact Option.some_ne_none _ |>.symm
  · rename_i s hs
    cases h
    rintro ⟨⟩
    exact hs rfl
  · cases h

theorem restore?_store (p : Pagination) : restore? p.store = some p.withoutNullBounds := by
  simp [restore?, store, Json.part?, Assoc.get?, restoreBound?_storeBound, Json.items?,
    Json.mapM_map_eq_some SortTerm.restore?_store, withoutNullBounds]

theorem ne_null_of_restore? {j : Json} {p : Pagination} (h : restore? j = some p) :
    p.limit ≠ some .null ∧ p.skip ≠ some .null := by
  obtain ⟨limit, hlimit, h⟩ := Option.bind_eq_some_iff.mp h
  obtain ⟨skip, hskip, h⟩ := Option.bind_eq_some_iff.mp h
  obtain ⟨part, -, h⟩ := Option.bind_eq_some_iff.mp h
  obtain ⟨items, -, h⟩ := Option.bind_eq_some_iff.mp h
  obtain ⟨sort, -, h⟩ := Option.bind_eq_some_iff.mp h
  cases h
  exact ⟨ne_null_of_restoreBound? hlimit, ne_null_of_restoreBound? hskip⟩

end Pagination

namespace Filter

/-- The filter as it is when a bound of null counts as left out. -/
def withoutNullBounds (f : Filter) : Filter :=
  { f with pagination := f.pagination.withoutNullBounds }

theorem withoutNullBounds_eq_self {f : Filter} (hlimit : f.pagination.limit ≠ some .null)
    (hskip : f.pagination.skip ≠ some .null) : f.withoutNullBounds = f := by
  rw [withoutNullBounds, Pagination.withoutNullBounds_eq_self hlimit hskip]

theorem restore?_store (f : Filter) : restore? f.store = some f.withoutNullBounds := by
  simp [restore?, store, Json.part?, Assoc.get?, Json.items?,
    Json.mapM_map_eq_some Entry.restore?_store, Pagination.restore?_store, withoutNullBounds]

theorem ne_null_of_restore? {j : Json} {f : Filter} (h : restore? j = some f) :
    f.pagination.limit ≠ some .null ∧ f.pagination.skip ≠ some .null := by
  obtain ⟨entriesPart, -, h⟩ := Option.bind_eq_some_iff.mp h
  obtain ⟨items, -, h⟩ := Option.bind_eq_some_iff.mp h
  obtain ⟨entries, -, h⟩ := Option.bind_eq_some_iff.mp h
  obtain ⟨pagePart, -, h⟩ := Option.bind_eq_some_iff.mp h
  obtain ⟨page, hpage, h⟩ := Option.bind_eq_some_iff.mp h
  cases h
  exact Pagination.ne_null_of_restore? hpage

/-- A stored filter is restored with its bounds of null left out and without any other change. So
it compiles to the same query when it has no such bounds, and what was restored from any document is
restored again from its own stored form. The round trip is one of values: a reader of texts such as
`Json.Reader` may move the last bit of a float that has been written down. -/
theorem store_round_trip (f : Filter) :
    restore? f.store = some f.withoutNullBounds ∧
      (f.pagination.limit ≠ some .null → f.pagination.skip ≠ some .null →
        ∃ g, restore? f.store = some g ∧
          ∀ base aliases, g.compile base aliases = f.compile base aliases) ∧
      ∀ document g, restore? document = some g → restore? g.store = some g := by
  refine ⟨f.restore?_store, fun hlimit hskip ↦ ?_, fun document g h ↦ ?_⟩
  · have hself := withoutNullBounds_eq_self hlimit hskip
    exact ⟨f, by rw [restore?_store, hself], fun _ _ ↦ rfl⟩
  · obtain ⟨hlimit, hskip⟩ := ne_null_of_restore? h
    rw [restore?_store, withoutNullBounds_eq_self hlimit hskip]

theorem store_round_trip_with_nulls :
    let a : Identifier := ⟨"a", by decide⟩
    let f : Filter :=
      ⟨[.field ⟨a, .equals .null⟩,
          .anyOf [⟨a, .isNull⟩, ⟨a, .compare [⟨.gt, .null⟩, ⟨.ne, .null⟩]⟩], .anyOf []],
        ⟨some .null, some (.int 0), [⟨a, .desc⟩, ⟨a, .asc⟩]⟩⟩
    let g : Filter := { f with pagination := { f.pagination with limit := none } }
    let document : Json := .object
      [("pagination", .object [("sort", .array []), ("skip", .null), ("more", .int 1)]),
        ("entries", .array [.object [("field", .object
          [("condition", .object [("value", .null), ("kind", .string "is_null")]),
            ("field", .string "a")])]])]
    restore? f.store = some g ∧
      (∃ h, restore? g.store = some h ∧
        ∀ base aliases, h.compile base aliases = g.compile base aliases) ∧
      ∃ h, restore? document = some h ∧ h.entries = [.field ⟨a, .isNull⟩] ∧
        restore? h.store = some h := by
  intro a f g document
  have hdocument : restore? document = some ⟨[.field ⟨a, .isNull⟩], Pagination.empty⟩ := rfl
  exact ⟨(store_round_trip f).1, (store_round_trip g).2.1 (by decide) (by decide),
    _, hdocument, rfl, (store_round_trip g).2.2 _ _ hdocument⟩

end Filter

end RowFilter
