import RowFilter.Proofs.QueryString.Leaves

/-!
How a value grows back out of its leaves. A leaf of the child under a new key starts an entry behind
all others, and the further leaves of this child change that last entry only
(`Shelf.foldl_place_child`). So the children of a container are finished one after another, and the
entries end up in document order (`Shelf.exists_foldl_children`); by induction over the value, each
child has become its own value by then (`grows_of_plain`).
-/

set_option autoImplicit false

namespace RowFilter.QueryString

/-! ### One child -/

/-- What a leaf makes of the place it leads to. -/
def store (leaf : Leaf) (child : Option Node) : Node :=
  child.elim (Node.fresh leaf.2 leaf.1) (Node.insert leaf.2 leaf.1)

/-- What leaves, one after another, make of the place they lead to. -/
def grow (leaves : List Leaf) (child : Option Node) : Option Node :=
  leaves.foldl (fun child leaf ↦ some (store leaf child)) child

/-- The leaves of a value grow into a node that stands for it. -/
def Grows (v : Json) : Prop := ∃ node, grow v.leaves none = some node ∧ node.toJson = v

/-! ### Containers -/

/-- The two kinds of container: slots and members. A step leads to the entry of a key, and
`place` changes this entry. A key that comes behind all others gets the last entry. -/
structure Shelf (κ : Type) where
  step : κ → Step
  node : List (κ × Node) → Node
  place : κ → (Option Node → Node) → List (κ × Node) → List (κ × Node)
  Before : κ → κ → Prop
  place_ne_nil : ∀ key f entries, place key f entries ≠ []
  place_last : ∀ {key} {entries : List (κ × Node)}, (∀ e ∈ entries, Before e.1 key) →
    ∀ f (last : Option Node), place key f (entries ++ last.toList.map fun node ↦ (key, node)) =
      entries ++ [(key, f last)]
  store_nil : ∀ key leaf, store (leaf.below (step key)) none = node (place key (store leaf) [])
  store_node : ∀ key leaf entries,
    store (leaf.below (step key)) (some (node entries)) = node (place key (store leaf) entries)

namespace Shelf

/-- Slots by ascending index. -/
def slots : Shelf Nat where
  step := .index
  node := .slots
  place := Assoc.alterSorted
  Before := (· < ·)
  place_ne_nil := Assoc.alterSorted_ne_nil
  place_last := Assoc.alterSorted_behind (Nat.lt_irrefl _)
  store_nil _ _ := rfl
  store_node _ _ _ := rfl

/-- Members by name in order of arrival. -/
def members : Shelf String where
  step := .key
  node := .members
  place := Assoc.alter
  Before := (· ≠ ·)
  place_ne_nil := Assoc.alter_ne_nil
  place_last := Assoc.alter_behind
  store_nil _ _ := rfl
  store_node _ _ _ := rfl

variable {κ : Type} (shelf : Shelf κ)

/-- The leaves of one new child change the last entry and no other. -/
theorem foldl_place_child {key : κ} {entries : List (κ × Node)}
    (h : ∀ e ∈ entries, shelf.Before e.1 key) (leaves : List Leaf) (last : Option Node) :
    leaves.foldl (fun entries leaf ↦ shelf.place key (store leaf) entries)
        (entries ++ last.toList.map fun node ↦ (key, node)) =
      entries ++ (grow leaves last).toList.map fun node ↦ (key, node) := by
  induction leaves generalizing last with
  | nil => rfl
  | cons leaf rest ih =>
    rw [List.foldl_cons, shelf.place_last h]
    exact ih (some (store leaf last))

/-- The leaves of children, each under its key. -/
def childLeaves (children : List (κ × Json)) : List (κ × Leaf) :=
  children.flatMap fun c ↦ c.2.leaves.map fun leaf ↦ (c.1, leaf)

/-- The children are finished one after another, in order. -/
theorem exists_foldl_children {children : List (κ × Json)} (entries : List (κ × Node))
    (hgrows : ∀ c ∈ children, Grows c.2)
    (horder : (entries.map Prod.fst ++ children.map Prod.fst).Pairwise shelf.Before) :
    ∃ added, (childLeaves children).foldl (fun entries l ↦ shelf.place l.1 (store l.2) entries)
        entries = entries ++ added ∧ added.map (fun e ↦ (e.1, e.2.toJson)) = children := by
  induction children generalizing entries with
  | nil => exact ⟨[], by simp [childLeaves]⟩
  | cons c rest ih =>
    obtain ⟨⟨node, hnode, hvalue⟩, hrest⟩ := List.forall_mem_cons.mp hgrows
    have hbehind : ∀ e ∈ entries, shelf.Before e.1 c.1 := fun e he ↦
      (List.pairwise_append.mp horder).2.2 e.1 (List.mem_map_of_mem he) c.1 (by simp)
    have hchild : (c.2.leaves).foldl (fun entries leaf ↦ shelf.place c.1 (store leaf) entries)
        entries = entries ++ [(c.1, node)] := by
      have h := shelf.foldl_place_child hbehind c.2.leaves none
      rw [hnode] at h
      simpa using h
    obtain ⟨added, hadded, hvalues⟩ := ih (entries ++ [(c.1, node)]) hrest
      (by simpa using horder)
    refine ⟨(c.1, node) :: added, ?_, ?_⟩
    · rw [childLeaves, List.flatMap_cons, List.foldl_append, List.foldl_map, hchild]
      rw [childLeaves] at hadded
      rw [hadded, List.append_assoc, List.singleton_append]
    · rw [List.map_cons, hvalues, hvalue]

/-- The place of a container: nothing before its first entry. -/
def place? (entries : List (κ × Node)) : Option Node :=
  if entries.isEmpty then none else some (shelf.node entries)

theorem some_store_place? (key : κ) (leaf : Leaf) (entries : List (κ × Node)) :
    some (store (leaf.below (shelf.step key)) (shelf.place? entries)) =
      shelf.place? (shelf.place key (store leaf) entries) := by
  have hne : (shelf.place key (store leaf) entries).isEmpty = false := by
    simpa using shelf.place_ne_nil key (store leaf) entries
  rw [place?, place?, hne]
  cases entries with
  | nil => exact congrArg some (shelf.store_nil key leaf)
  | cons e rest => exact congrArg some (shelf.store_node key leaf (e :: rest))

theorem grow_place? (leaves : List (κ × Leaf)) :
    grow (leaves.map fun l ↦ l.2.below (shelf.step l.1)) (shelf.place? []) =
      shelf.place? (leaves.foldl (fun entries l ↦ shelf.place l.1 (store l.2) entries) []) := by
  rw [grow, List.foldl_map]
  exact List.foldl_hom shelf.place? fun entries l ↦ shelf.some_store_place? l.1 l.2 entries

/-- A container grows out of the leaves of its children. -/
theorem exists_grow_children {children : List (κ × Json)} (hne : children ≠ [])
    (hgrows : ∀ c ∈ children, Grows c.2)
    (horder : (children.map Prod.fst).Pairwise shelf.Before) :
    ∃ added, grow (children.flatMap fun c ↦ c.2.leaves.map (Leaf.below (shelf.step c.1))) none =
        some (shelf.node added) ∧ added.map (fun e ↦ (e.1, e.2.toJson)) = children := by
  obtain ⟨added, hadded, hvalues⟩ :=
    shelf.exists_foldl_children [] hgrows (by simpa using horder)
  have hleaves : (children.flatMap fun c ↦ c.2.leaves.map (Leaf.below (shelf.step c.1))) =
      (childLeaves children).map fun l ↦ l.2.below (shelf.step l.1) := by
    simp only [childLeaves, List.map_flatMap, List.map_map, Function.comp_def]
  have hfull : added.isEmpty = false := by
    cases added with
    | nil => exact absurd hvalues.symm hne
    | cons e rest => rfl
  have hplace : shelf.place? added = some (shelf.node added) := by simp [place?, hfull]
  refine ⟨added, ?_, hvalues⟩
  rw [hleaves, ← hplace, ← List.nil_append added, ← hadded]
  exact shelf.grow_place? (childLeaves children)

end Shelf

/-! ### Values -/

theorem slotValues_eq_map (items : List (Nat × Node)) :
    Node.slotValues items = items.map fun e ↦ e.2.toJson := by
  induction items with
  | nil => rfl
  | cons e rest ih => rw [Node.slotValues, ih, List.map_cons]

theorem memberValues_eq_map (items : List (String × Node)) :
    Node.memberValues items = items.map fun e ↦ (e.1, e.2.toJson) := by
  induction items with
  | nil => rfl
  | cons e rest ih => rw [Node.memberValues, ih, List.map_cons]

theorem get?_memberValues (name : String) (items : List (String × Node)) :
    Assoc.get? name (Node.memberValues items) = (Assoc.get? name items).map Node.toJson := by
  induction items with
  | nil => rfl
  | cons e rest ih =>
    obtain ⟨own, node⟩ := e
    by_cases h : own = name <;> simp [Node.memberValues, Assoc.get?, h, ih]

/-- A plain value grows out of its leaves. -/
theorem grows_of_plain {v : Json} (h : v.Plain) : Grows v := by
  induction h with
  | @scalar s _ => exact ⟨.leaf s, rfl, rfl⟩
  | @array items ne_nil _ _ ih =>
    have hchildren : (Json.indexed 0 items).map Prod.snd = items := Json.map_snd_indexed 0 items
    have hne : Json.indexed 0 items ≠ [] := by
      rintro heq
      rw [heq] at hchildren
      exact ne_nil hchildren.symm
    have hgrows : ∀ c ∈ Json.indexed 0 items, Grows c.2 := fun c hc ↦
      ih c.2 (hchildren ▸ List.mem_map_of_mem hc)
    have horder : ((Json.indexed 0 items).map Prod.fst).Pairwise (· < ·) := by
      rw [Json.map_fst_indexed]
      exact List.pairwise_lt_range'
    obtain ⟨added, hadded, hvalues⟩ := Shelf.slots.exists_grow_children hne hgrows horder
    refine ⟨.slots added, ?_, ?_⟩
    · rw [Json.leaves_array]
      exact hadded
    · have h := congrArg (List.map Prod.snd) hvalues
      rw [List.map_map, hchildren] at h
      rw [Node.toJson, slotValues_eq_map]
      exact congrArg Json.array h
  | @object members ne_nil nodup _ _ ih =>
    obtain ⟨added, hadded, hvalues⟩ := Shelf.members.exists_grow_children ne_nil ih nodup
    refine ⟨.members added, ?_, ?_⟩
    · rw [Json.leaves_object]
      exact hadded
    · rw [Node.toJson, memberValues_eq_map, hvalues]

/-- An object grows out of the parameters that its leaves are, whatever its size. -/
theorem toJson_ofParameters {members : List (String × Json)}
    (hnodup : (members.map Prod.fst).Nodup) (hplain : ∀ m ∈ members, m.2.Plain) :
    (Tree.ofParameters (leafParameters members)).toJson = .object members := by
  obtain ⟨added, hadded, hvalues⟩ := Shelf.members.exists_foldl_children []
    (fun m hm ↦ grows_of_plain (hplain m hm)) hnodup
  have hparameters : leafParameters members =
      (Shelf.childLeaves members).map fun l ↦ ⟨⟨l.1, l.2.1⟩, l.2.2⟩ := by
    simp only [leafParameters, Shelf.childLeaves, List.map_flatMap, List.map_map,
      Function.comp_def]
  have htree : Tree.ofParameters (leafParameters members) = added := by
    rw [hparameters, Tree.ofParameters, List.foldl_map]
    exact hadded
  rw [htree, Tree.toJson, memberValues_eq_map, hvalues]

end RowFilter.QueryString
