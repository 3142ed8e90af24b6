import RowFilter.Proofs.Assoc
import RowFilter.Proofs.QueryString.Growth

/-!
What holds of every tree that parameters build up. The slots of a list ascend, the names of members
are distinct, and no container below the root is empty: a container is only made for a value that
goes into it, and nothing is ever taken out. One lemma for each function that changes a node says
that it keeps this, provided that the change of the child does; by induction over the steps of a
path, so does every store (`Node.WellFormed.insert`), and hence every run of parameters
(`Tree.wellFormed_ofParameters`).
-/

set_option autoImplicit false

namespace RowFilter.QueryString

open Assoc (Ascending)

/-! ### Slots -/

section Slots

variable {items : List (Nat × Node)}

theorem lt_nextIndex (h : Ascending items) : ∀ e ∈ items, e.1 < nextIndex items := by
  rcases List.eq_nil_or_concat' items with rfl | ⟨init, last, rfl⟩
  · simp
  · have hnext : nextIndex (init ++ [last]) = last.1 + 1 := by
      simp [nextIndex]
    have hbehind := (List.pairwise_append.mp h).2.2
    intro e he
    rw [hnext]
    rcases List.mem_append.mp he with he | he
    · exact Nat.lt_succ_of_lt (hbehind e he last (List.mem_singleton_self last))
    · rw [List.mem_singleton.mp he]
      exact Nat.lt_succ_self _

/-- The place behind all slots is the place of the next index. -/
theorem append_nextIndex (h : Ascending items) (f : Option Node → Node) :
    items ++ [(nextIndex items, f none)] = Assoc.alterSorted (nextIndex items) f items := by
  have hlast := Assoc.alterSorted_behind (Nat.lt_irrefl _) (lt_nextIndex h) f none
  rw [← hlast, Option.toList_none, List.map_nil, List.append_nil]

theorem get?_nextIndex (h : Ascending items) : Assoc.get? (nextIndex items) items = none :=
  Assoc.get?_eq_none_iff.mpr fun e he ↦ Nat.ne_of_lt (lt_nextIndex h e he)

theorem nodup_namedSlots (h : Ascending items) : ((namedSlots items).map Prod.fst).Nodup := by
  have hnames : (namedSlots items).map Prod.fst = (items.map Prod.fst).map toString := by
    simp [namedSlots]
  rw [hnames]
  exact h.nodup_keys.map Decimal.toString_injective

end Slots

/-! ### Nodes -/

namespace Node

/-- No container is empty, slots ascend, and names are distinct. -/
inductive WellFormed : Node → Prop
  | leaf (value : Scalar) : WellFormed (.leaf value)
  | slots {items : List (Nat × Node)} (ne_nil : items ≠ []) (ascending : Ascending items)
      (children : ∀ e ∈ items, WellFormed e.2) : WellFormed (.slots items)
  | members {items : List (String × Node)} (ne_nil : items ≠ [])
      (nodup : (items.map Prod.fst).Nodup) (children : ∀ e ∈ items, WellFormed e.2) :
      WellFormed (.members items)

/-- A change that makes a well-formed node of nothing and of every well-formed node. -/
def Keeps (change : Option Node → Node) : Prop :=
  ∀ old : Option Node, (∀ node ∈ old, node.WellFormed) → (change old).WellFormed

variable {change : Option Node → Node}

theorem WellFormed.alterSorted {items : List (Nat × Node)} (hchange : Keeps change)
    (hascending : Ascending items) (hchildren : ∀ e ∈ items, e.2.WellFormed) (i : Nat) :
    (Node.slots (Assoc.alterSorted i change items)).WellFormed :=
  .slots (Assoc.alterSorted_ne_nil i change items) (hascending.alterSorted change)
    (Assoc.forall_mem_alterSorted hchange hchildren)

theorem WellFormed.alter {items : List (String × Node)} (hchange : Keeps change)
    (hnodup : (items.map Prod.fst).Nodup) (hchildren : ∀ e ∈ items, e.2.WellFormed)
    (name : String) : (Node.members (Assoc.alter name change items)).WellFormed :=
  .members (Assoc.alter_ne_nil name change items) (Assoc.nodup_keys_alter hnodup change)
    (Assoc.forall_mem_alter hchange hchildren)

theorem WellFormed.alterSlots {items : List (Nat × Node)} (hchange : Keeps change)
    (hascending : Ascending items) (hchildren : ∀ e ∈ items, e.2.WellFormed) (step : Step) :
    (Node.alterSlots change items step).WellFormed := by
  cases step with
  | key name =>
    refine .alter hchange (nodup_namedSlots hascending) ?_ name
    exact List.forall_mem_map.mpr hchildren
  | index i => exact .alterSorted hchange hascending hchildren i
  | append =>
    rw [Node.alterSlots, append_nextIndex hascending]
    exact .alterSorted hchange hascending hchildren _

theorem WellFormed.alterMembers {items : List (String × Node)} (hchange : Keeps change)
    (hnodup : (items.map Prod.fst).Nodup) (hchildren : ∀ e ∈ items, e.2.WellFormed) (step : Step) :
    (Node.alterMembers change items step).WellFormed := by
  cases step <;> exact .alter hchange hnodup hchildren _

theorem ascending_singleton (i : Nat) (node : Node) : Ascending [(i, node)] :=
  List.pairwise_singleton _ _

theorem WellFormed.alterChild {node : Node} (hchange : Keeps change) (h : node.WellFormed)
    (step : Step) : (node.alterChild change step).WellFormed := by
  cases h with
  | leaf value =>
    exact .alterSlots hchange (ascending_singleton _ _) (by simpa using WellFormed.leaf value) step
  | slots _ ascending children => exact .alterSlots hchange ascending children step
  | members _ nodup children => exact .alterMembers hchange nodup children step

theorem keeps_leaf (value : Scalar) : Keeps fun _ ↦ .leaf value := fun _ _ ↦ .leaf value

theorem WellFormed.fresh (value : Scalar) (steps : List Step) :
    (Node.fresh value steps).WellFormed := by
  induction steps with
  | nil => exact .leaf value
  | cons step rest ih =>
    cases step with
    | key name =>
      exact .members (List.cons_ne_nil _ _) (List.nodup_singleton _) (by simpa using ih)
    | index i => exact .slots (List.cons_ne_nil _ _) (ascending_singleton _ _) (by simpa using ih)
    | append => exact .slots (List.cons_ne_nil _ _) (ascending_singleton _ _) (by simpa using ih)

theorem WellFormed.add {node : Node} (h : node.WellFormed) (value : Scalar) :
    (node.add value).WellFormed := by
  cases h with
  | leaf old =>
    refine .slots (List.cons_ne_nil _ _) ?_ ?_
    · exact List.pairwise_pair.mpr Nat.zero_lt_one
    · simpa using ⟨WellFormed.leaf old, WellFormed.leaf value⟩
  | slots _ ascending children =>
    rw [Node.add, append_nextIndex ascending fun _ ↦ .leaf value]
    exact .alterSorted (keeps_leaf value) ascending children _
  | members _ nodup children => exact .alter (keeps_leaf _) nodup children _

/-- Storing a value keeps a node well-formed, wherever the path leads. -/
theorem WellFormed.insert {node : Node} (h : node.WellFormed) (value : Scalar)
    (steps : List Step) : (Node.insert value steps node).WellFormed := by
  induction steps generalizing node with
  | nil => exact h.add value
  | cons step rest ih =>
    refine h.alterChild (fun old hold ↦ ?_) step
    cases old with
    | none => exact .fresh value rest
    | some child => exact ih (hold child rfl)

end Node

/-- Storing a leaf makes or keeps a well-formed node. -/
theorem keeps_store (leaf : Leaf) : Node.Keeps (store leaf) := by
  intro old hold
  cases old with
  | none => exact .fresh leaf.2 leaf.1
  | some node => exact (hold node rfl).insert leaf.2 leaf.1

/-! ### Trees -/

namespace Tree

/-- The root may be empty; all nodes below it are well-formed. -/
structure WellFormed (tree : Tree) : Prop where
  nodup : (tree.map Prod.fst).Nodup
  children : ∀ e ∈ tree, e.2.WellFormed

theorem WellFormed.insert {tree : Tree} (h : tree.WellFormed) (path : Path) (value : Scalar) :
    (tree.insert path value).WellFormed := by
  cases Node.WellFormed.alter (keeps_store (path.steps, value)) h.nodup h.children path.root with
  | members _ nodup children => exact ⟨nodup, children⟩

theorem wellFormed_ofParameters (ps : List Parameter) : (ofParameters ps).WellFormed := by
  suffices h : ∀ tree : Tree, tree.WellFormed →
      (ps.foldl (fun tree p ↦ tree.insert p.path p.value) tree).WellFormed from
    h [] ⟨List.nodup_nil, List.forall_mem_nil _⟩
  induction ps with
  | nil => exact fun _ h ↦ h
  | cons p rest ih => exact fun tree h ↦ ih _ (h.insert p.path p.value)

end Tree

end RowFilter.QueryString

/-! ### Decoded values -/

namespace RowFilter

/-- No container of the value is empty, and no object has a name twice. -/
inductive Json.Full : Json → Prop
  | scalar (s : Scalar) : Full (.scalar s)
  | array {items : List Json} (ne_nil : items ≠ []) (values : ∀ item ∈ items, Full item) :
      Full (.array items)
  | object {members : List (String × Json)} (ne_nil : members ≠ [])
      (nodup : (members.map Prod.fst).Nodup) (values : ∀ m ∈ members, Full m.2) :
      Full (.object members)

namespace QueryString

theorem map_fst_memberValues (items : List (String × Node)) :
    (Node.memberValues items).map Prod.fst = items.map Prod.fst := by
  rw [memberValues_eq_map, List.map_map]
  rfl

theorem Node.WellFormed.full_toJson {node : Node} (h : node.WellFormed) : node.toJson.Full := by
  induction h with
  | leaf value => exact .scalar value
  | slots ne_nil _ _ ih =>
    rw [Node.toJson, slotValues_eq_map]
    exact .array (by simpa using ne_nil) (List.forall_mem_map.mpr ih)
  | @members items ne_nil nodup _ ih =>
    have hnames := map_fst_memberValues items
    rw [Node.toJson]
    rw [← hnames] at nodup
    rw [memberValues_eq_map] at nodup ⊢
    exact .object (by simpa using ne_nil) nodup (List.forall_mem_map.mpr ih)

/-- A query string is decoded to an object with distinct names, and below the root no container is
empty. -/
theorem exists_decode_eq_object (query : String) :
    ∃ members, decode query = .object members ∧ (members.map Prod.fst).Nodup ∧
      ∀ m ∈ members, m.2.Full := by
  have h := Tree.wellFormed_ofParameters (parameters query)
  refine ⟨_, rfl, ?_, ?_⟩
  · rw [map_fst_memberValues]
    exact h.nodup
  · rw [memberValues_eq_map]
    exact List.forall_mem_map.mpr fun e he ↦ (h.children e he).full_toJson

end QueryString

end RowFilter
