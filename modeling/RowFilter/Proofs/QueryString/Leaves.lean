import RowFilter.Proofs.QueryString.Coercion
import RowFilter.Proofs.QueryString.Path
import RowFilter.QueryString.Decode

/-!
The leaves of a value in document order, each with the steps that lead to it: the keys of objects
and the indices of arrays. A value is plain if these steps and the leaves can be read off their
texts and no container is empty, because a container without leaves leaves no trace.
-/

set_option autoImplicit false

namespace RowFilter

open QueryString

/-- A scalar and the steps that lead to it. -/
abbrev Leaf := List Step × Scalar

/-- A leaf as it is seen from one step further up. -/
def Leaf.below (step : Step) (leaf : Leaf) : Leaf := (step :: leaf.1, leaf.2)

namespace Json

mutual

def leaves : Json → List Leaf
  | .scalar s => [([], s)]
  | .array items => itemLeaves 0 items
  | .object members => memberLeaves members

def itemLeaves : Nat → List Json → List Leaf
  | _, [] => []
  | i, item :: rest => (leaves item).map (Leaf.below (.index i)) ++ itemLeaves (i + 1) rest

def memberLeaves : List (String × Json) → List Leaf
  | [] => []
  | (name, value) :: rest => (leaves value).map (Leaf.below (.key name)) ++ memberLeaves rest

end

/-- The items of an array under their indices. -/
def indexed : Nat → List Json → List (Nat × Json)
  | _, [] => []
  | i, item :: rest => (i, item) :: indexed (i + 1) rest

theorem map_snd_indexed (i : Nat) (items : List Json) : (indexed i items).map Prod.snd = items := by
  induction items generalizing i with
  | nil => rfl
  | cons item rest ih => simp [indexed, ih]

theorem map_fst_indexed (i : Nat) (items : List Json) :
    (indexed i items).map Prod.fst = List.range' i items.length := by
  induction items generalizing i with
  | nil => rfl
  | cons item rest ih => simp [indexed, ih, List.range'_succ]

theorem leaves_array (items : List Json) :
    (Json.array items).leaves =
      (indexed 0 items).flatMap fun e ↦ e.2.leaves.map (Leaf.below (.index e.1)) := by
  have h (i : Nat) : itemLeaves i items =
      (indexed i items).flatMap fun e ↦ e.2.leaves.map (Leaf.below (.index e.1)) := by
    induction items generalizing i with
    | nil => rfl
    | cons item rest ih => rw [itemLeaves, indexed, List.flatMap_cons, ih]
  rw [leaves, h]

theorem leaves_object (members : List (String × Json)) :
    (Json.object members).leaves =
      members.flatMap fun m ↦ m.2.leaves.map (Leaf.below (.key m.1)) := by
  have h : memberLeaves members =
      members.flatMap fun m ↦ m.2.leaves.map (Leaf.below (.key m.1)) := by
    induction members with
    | nil => rfl
    | cons m rest ih => rw [memberLeaves, List.flatMap_cons, ih]
  rw [leaves, h]

theorem exists_of_mem_leaves_array {items : List Json} {leaf : Leaf}
    (h : leaf ∈ (Json.array items).leaves) :
    ∃ i, ∃ item ∈ items, ∃ inner ∈ item.leaves, leaf = inner.below (.index i) := by
  rw [leaves_array] at h
  obtain ⟨⟨i, item⟩, hitem, hmem⟩ := List.mem_flatMap.mp h
  obtain ⟨inner, hinner, rfl⟩ := List.mem_map.mp hmem
  have hitems : item ∈ (indexed 0 items).map Prod.snd := List.mem_map_of_mem hitem
  rw [map_snd_indexed] at hitems
  exact ⟨i, item, hitems, inner, hinner, rfl⟩

theorem exists_of_mem_leaves_object {members : List (String × Json)} {leaf : Leaf}
    (h : leaf ∈ (Json.object members).leaves) :
    ∃ m ∈ members, ∃ inner ∈ m.2.leaves, leaf = inner.below (.key m.1) := by
  rw [leaves_object] at h
  obtain ⟨m, hm, hmem⟩ := List.mem_flatMap.mp h
  obtain ⟨inner, hinner, rfl⟩ := List.mem_map.mp hmem
  exact ⟨m, hm, inner, hinner, rfl⟩

/-- A value of which every part shows in the leaves: no container is empty, an array has no more
items than there are indices, no object has a name twice, and names and scalars are plain. -/
inductive Plain : Json → Prop
  | scalar {s : Scalar} (value : s.Plain) : Plain (.scalar s)
  | array {items : List Json} (ne_nil : items ≠ []) (length_le : items.length ≤ 21)
      (values : ∀ item ∈ items, Plain item) : Plain (.array items)
  | object {members : List (String × Json)} (ne_nil : members ≠ [])
      (nodup : (members.map Prod.fst).Nodup) (names : ∀ m ∈ members, (Step.key m.1).Plain)
      (values : ∀ m ∈ members, Plain m.2) : Plain (.object members)

theorem plain_of_mem_leaves {v : Json} (h : v.Plain) :
    ∀ leaf ∈ v.leaves, (∀ step ∈ leaf.1, step.Plain) ∧ leaf.2.Plain := by
  induction h with
  | scalar value => simpa [leaves] using value
  | @array items ne_nil length_le values ih =>
    rw [leaves_array]
    intro leaf hleaf
    obtain ⟨⟨i, item⟩, hitem, hmem⟩ := List.mem_flatMap.mp hleaf
    obtain ⟨inner, hinner, rfl⟩ := List.mem_map.mp hmem
    have hindex : i ∈ List.range' 0 items.length :=
      map_fst_indexed 0 items ▸ List.mem_map_of_mem hitem
    have hmemItems : item ∈ items := by
      have h := List.mem_map_of_mem (f := Prod.snd) hitem
      rwa [map_snd_indexed] at h
    have hle : i ≤ 20 := by
      have := (List.mem_range'_1.mp hindex).2
      omega
    obtain ⟨hsteps, hvalue⟩ := ih item hmemItems inner hinner
    exact ⟨List.forall_mem_cons.mpr ⟨hle, hsteps⟩, hvalue⟩
  | object ne_nil nodup names values ih =>
    rw [leaves_object]
    intro leaf hleaf
    obtain ⟨m, hm, hmem⟩ := List.mem_flatMap.mp hleaf
    obtain ⟨inner, hinner, rfl⟩ := List.mem_map.mp hmem
    obtain ⟨hsteps, hvalue⟩ := ih m hm inner hinner
    exact ⟨List.forall_mem_cons.mpr ⟨names m hm, hsteps⟩, hvalue⟩

end Json

/-! ### Parameters -/

namespace QueryString

/-- The leaves of an object as parameters. -/
def leafParameters (members : List (String × Json)) : List Parameter :=
  members.flatMap fun m ↦ m.2.leaves.map fun leaf ↦ ⟨⟨m.1, leaf.1⟩, leaf.2⟩

/-- A parameter as name and value. -/
def Parameter.pair (p : Parameter) : String × String := (p.path.text, memberName p.value)

theorem Parameter.ofPair?_pair {p : Parameter} (hpath : p.path.Plain) (hvalue : p.value.Plain) :
    ofPair? p.pair = some p := by
  simp [ofPair?, pair, Path.text_ne_empty hpath, Path.ofName_text hpath, coerce?_memberName hvalue]

end QueryString

end RowFilter
