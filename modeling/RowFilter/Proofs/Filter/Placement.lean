import RowFilter.Compile
import RowFilter.Proofs.Assoc

/-!
Where the page is written does not matter. The three directives of the page contribute no entry and
are looked up by name after all entries have been read. So the entries depend on the other members
alone, in their order (`Entry.filterMap_mapM_unpaged`), and the page on what stands under the three
names (`Pagination.ofMembers_congr`); moving the directives about changes neither, and of several
faults the same one is found first (`Filter.ofJson_eq_of_sameButPlacement`).
-/

set_option autoImplicit false

namespace RowFilter

/-- The names of the directives of the page. -/
def MemberKind.pageKeys : List String := [limitKey, skipKey, sortKey]

/-- The members that are no directives of the page. -/
def Json.unpaged (members : List (String × Json)) : List (String × Json) :=
  members.filter fun m ↦ m.1 ∉ MemberKind.pageKeys

/-- The same members in two orders, of which one becomes the other when only directives of the page
are moved. -/
structure Json.SameButPlacement (ms ns : List (String × Json)) : Prop where
  perm : ms.Perm ns
  unpaged : unpaged ms = unpaged ns

/-! ### Entries -/

theorem Entry.ofMember_of_mem_pageKeys {member : String × Json}
    (h : member.1 ∈ MemberKind.pageKeys) : Entry.ofMember member = .ok none := by
  have hkind : MemberKind.ofKey member.1 = .pagination :=
    if_pos (by simpa [MemberKind.pageKeys] using h)
  rw [Entry.ofMember, hkind]

section Results

variable {ε α β : Type}

theorem filterMap_mapM_cons (f : α → Except ε (Option β)) (a : α) (as : List α) :
    ((a :: as).mapM f).map (List.filterMap id) =
      f a >>= fun b ↦ ((as.mapM f).map (List.filterMap id)).map (b.toList ++ ·) := by
  rw [List.mapM_cons]
  cases f a with
  | error e => rfl
  | ok b =>
    cases as.mapM f with
    | error e => rfl
    | ok bs => cases b <;> rfl

/-- What contributes nothing can be left out before it is read. -/
theorem filterMap_mapM_filter {f : α → Except ε (Option β)} {keep : α → Bool}
    (h : ∀ a, keep a = false → f a = .ok none) (as : List α) :
    (as.mapM f).map (List.filterMap id) = ((as.filter keep).mapM f).map (List.filterMap id) := by
  induction as with
  | nil => rfl
  | cons a rest ih =>
    rw [filterMap_mapM_cons, ih]
    by_cases ha : keep a = true
    · rw [List.filter_cons_of_pos ha, filterMap_mapM_cons]
    · rw [List.filter_cons_of_neg ha, h a (by simpa using ha)]
      cases (rest.filter keep).mapM f <;> rfl

end Results

theorem Entry.filterMap_mapM_unpaged (members : List (String × Json)) :
    (members.mapM Entry.ofMember).map (List.filterMap id) =
      ((Json.unpaged members).mapM Entry.ofMember).map (List.filterMap id) := by
  apply filterMap_mapM_filter
  intro m hm
  exact Entry.ofMember_of_mem_pageKeys (by simpa using hm)

/-! ### The page -/

/-- The page depends on what stands under its three names. -/
theorem Pagination.ofMembers_congr {ms ns : List (String × Json)}
    (h : ∀ key ∈ MemberKind.pageKeys, Assoc.get? key ms = Assoc.get? key ns) :
    Pagination.ofMembers ms = Pagination.ofMembers ns := by
  have hlimit := h MemberKind.limitKey (by decide)
  have hskip := h MemberKind.skipKey (by decide)
  have hsort := h MemberKind.sortKey (by decide)
  unfold Pagination.ofMembers Pagination.bound
  rw [hlimit, hskip, hsort]

/-! ### Filters -/

/-- The entries are read first and without the page, and the page behind them. -/
theorem Filter.ofMembers_eq (members : List (String × Json)) :
    Filter.ofMembers members =
      (((Json.unpaged members).mapM Entry.ofMember).map (List.filterMap id)) >>= fun entries ↦
        (Pagination.ofMembers members).map fun page ↦ ⟨entries, page⟩ := by
  rw [← Entry.filterMap_mapM_unpaged, Filter.ofMembers]
  cases members.mapM Entry.ofMember with
  | error e => rfl
  | ok entries => cases Pagination.ofMembers members <;> rfl

/-- An object is read as the same filter, or rejected with the same error, wherever among the other
members the directives of its page stand, and it compiles to the same query. -/
theorem Filter.ofJson_eq_of_sameButPlacement {ms ns : List (String × Json)}
    (hdistinct : (ms.map Prod.fst).Nodup) (h : Json.SameButPlacement ms ns) :
    Filter.ofJson (.object ms) = Filter.ofJson (.object ns) ∧
      ∀ base aliases,
        compileDocument base (.object ms) aliases = compileDocument base (.object ns) aliases := by
  have hpage : Pagination.ofMembers ms = Pagination.ofMembers ns :=
    Pagination.ofMembers_congr fun key _ ↦ Assoc.get?_eq_of_perm hdistinct h.perm key
  have hfilter : Filter.ofJson (.object ms) = Filter.ofJson (.object ns) := by
    show Filter.ofMembers ms = Filter.ofMembers ns
    rw [Filter.ofMembers_eq, Filter.ofMembers_eq, h.unpaged, hpage]
  exact ⟨hfilter, fun base aliases ↦ by rw [compileDocument, compileDocument, hfilter]⟩

theorem Filter.ofJson_eq_of_sameButPlacement_moved :
    let limit : String × Json := ("$limit", .int 5)
    let sort : String × Json := ("$sort", .object [("c", .int 1)])
    let group : String × Json := ("$or", .array [.object [("b", .null)], .object [("b", .int 2)]])
    let a : String × Json := ("a", .object [("$gt", .int 1)])
    let ms := [limit, a, sort, group]
    let ns := [a, group, sort, limit]
    (ms.map Prod.fst).Nodup ∧ Json.SameButPlacement ms ns ∧
      Filter.ofJson (.object ms) = Filter.ofJson (.object ns) ∧
      compileDocument "" (.object ms) none = compileDocument "" (.object ns) none ∧
      compileDocument "" (.object ns) none =
        .ok ⟨"WHERE (b IS NULL OR b = $2) AND a > $1 ORDER BY c ASC LIMIT $3",
          [.int 1, .int 2, .int 5]⟩ := by
  intro limit sort group a ms ns
  have hdistinct : (ms.map Prod.fst).Nodup := by decide
  have hperm : ms.Perm ns :=
    (List.Perm.swap a limit [sort, group]).trans (.cons a (List.reverse_perm [group, sort, limit]))
  have hplaces : Json.SameButPlacement ms ns := ⟨hperm, rfl⟩
  obtain ⟨hfilter, hcompile⟩ := Filter.ofJson_eq_of_sameButPlacement hdistinct hplaces
  exact ⟨hdistinct, hplaces, hfilter, hcompile "" none, by decide⟩

end RowFilter
