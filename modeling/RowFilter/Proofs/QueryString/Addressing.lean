import RowFilter.Proofs.QueryString.Order
import RowFilter.Proofs.QueryString.Reached

/-!
Places of a tree by the texts on the way, where a slot has the text of its index and a member its
name. A well-formed node represents its own leaves (`Node.WellFormed.represents`), and among leaves
that a node represents each stands at its texts and no value anywhere else
(`Represents.at?_eq_leaf_iff`). So storing a value at a free place with no value on the way to it
puts the value there and leaves every other value at its texts, also where slots turn into members
on the way (`Reached.at?_insert`).
-/

set_option autoImplicit false

namespace RowFilter.QueryString

/-! ### Places -/

namespace Node

/-- The children of a node, each under the text that leads to it. -/
def entries : Node → List (String × Node)
  | .leaf _ => []
  | .slots items => namedSlots items
  | .members items => items

/-- The node at the end of a path of texts. -/
def at? : List String → Node → Option Node
  | [], node => some node
  | text :: rest, node => (Assoc.get? text node.entries).bind (at? rest)

theorem at?_append (path more : List String) (node : Node) :
    node.at? (path ++ more) = (node.at? path).bind (at? more) := by
  induction path generalizing node with
  | nil => rfl
  | cons text rest ih =>
    rw [List.cons_append, at?, at?, Option.bind_assoc]
    exact congrArg _ (funext ih)

end Node

/-! ### Nodes represent their leaves -/

section Entries

variable {κ : Type} {items : List (κ × Node)}

/-- The leaves of entries, where a key leads by a step to its entry. -/
def entryLeaves (step : κ → Step) (items : List (κ × Node)) : List Leaf :=
  items.flatMap fun e ↦ e.2.leaves.map (Leaf.below (step e.1))

theorem slotLeaves_eq (items : List (Nat × Node)) :
    Node.slotLeaves items = entryLeaves .index items := by
  induction items with
  | nil => rfl
  | cons e rest ih => rw [Node.slotLeaves, ih, entryLeaves, entryLeaves, List.flatMap_cons]

theorem memberLeaves_eq (items : List (String × Node)) :
    Node.memberLeaves items = entryLeaves .key items := by
  induction items with
  | nil => rfl
  | cons e rest ih => rw [Node.memberLeaves, ih, entryLeaves, entryLeaves, List.flatMap_cons]

theorem within_map_below (name : String) (step : Step) (leaves : List Leaf) :
    Leaf.within name (leaves.map (Leaf.below step)) = if step.text = name then leaves else [] := by
  rw [Leaf.within, List.filterMap_map]
  split
  · rename_i h
    exact (List.filterMap_congr fun leaf _ ↦ if_pos h).trans List.filterMap_some
  · rename_i h
    exact List.filterMap_eq_nil_iff.mpr fun leaf _ ↦ if_neg h

/-- Below a text stand the leaves of the entry that the text leads to. -/
theorem within_entryLeaves (step : κ → Step)
    (hnodup : (items.map fun e ↦ (step e.1).text).Nodup) (name : String) :
    Leaf.within name (entryLeaves step items) =
      (Assoc.get? name (items.map fun e ↦ ((step e.1).text, e.2))).elim [] Node.leaves := by
  induction items with
  | nil => rfl
  | cons e rest ih =>
    obtain ⟨hfirst, hrest⟩ := List.nodup_cons.mp hnodup
    have hsplit : Leaf.within name (entryLeaves step (e :: rest)) =
        Leaf.within name (e.2.leaves.map (Leaf.below (step e.1))) ++
          Leaf.within name (entryLeaves step rest) := by
      rw [entryLeaves, List.flatMap_cons, Leaf.within, List.filterMap_append]
      rfl
    rw [hsplit, within_map_below, ih hrest, List.map_cons, Assoc.get?]
    by_cases hname : (step e.1).text = name
    · subst hname
      have hnone : Assoc.get? (step e.1).text (rest.map fun e ↦ ((step e.1).text, e.2)) = none := by
        refine Assoc.get?_eq_none_of_notMem ?_
        rwa [List.map_map]
      rw [if_pos rfl, if_pos rfl, hnone, Option.elim_none, List.append_nil, Option.elim_some]
    · rw [if_neg hname, if_neg hname, List.nil_append]

theorem exists_below_mem_entryLeaves (step : κ → Step) (hne : items ≠ [])
    (h : ∀ e ∈ items, e.2.leaves ≠ []) :
    ∃ key leaf, Leaf.below (step key) leaf ∈ entryLeaves step items := by
  obtain ⟨e, rest, rfl⟩ := List.exists_cons_of_ne_nil hne
  obtain ⟨leaf, hleaf⟩ := List.exists_mem_of_ne_nil _ (h e List.mem_cons_self)
  refine ⟨e.1, leaf, List.mem_flatMap.mpr ⟨e, List.mem_cons_self, ?_⟩⟩
  exact List.mem_map_of_mem hleaf

theorem exists_of_mem_entryLeaves {step : κ → Step} {leaf : Leaf}
    (h : leaf ∈ entryLeaves step items) : ∃ key rest, leaf.1 = step key :: rest := by
  obtain ⟨e, -, hmem⟩ := List.mem_flatMap.mp h
  obtain ⟨inner, -, rfl⟩ := List.mem_map.mp hmem
  exact ⟨e.1, inner.1, rfl⟩

theorem represents_get? {entries : List (String × Node)}
    (h : ∀ e ∈ entries, Represents e.2.leaves (some e.2)) (name : String) :
    Represents ((Assoc.get? name entries).elim [] Node.leaves) (Assoc.get? name entries) := by
  cases hchild : Assoc.get? name entries with
  | none => exact .none
  | some child => exact h _ (Assoc.mem_of_get?_eq_some hchild)

end Entries

theorem Node.WellFormed.leaves_ne_nil {node : Node} (h : node.WellFormed) : node.leaves ≠ [] := by
  induction h with
  | leaf value => exact List.cons_ne_nil _ _
  | slots ne_nil _ _ ih =>
    obtain ⟨_, _, hmem⟩ := exists_below_mem_entryLeaves .index ne_nil ih
    rw [leaves, slotLeaves_eq]
    exact List.ne_nil_of_mem hmem
  | members ne_nil _ _ ih =>
    obtain ⟨_, _, hmem⟩ := exists_below_mem_entryLeaves .key ne_nil ih
    rw [leaves, memberLeaves_eq]
    exact List.ne_nil_of_mem hmem

/-- A well-formed node holds its leaves and nothing else. -/
theorem Node.WellFormed.represents {node : Node} (h : node.WellFormed) :
    Represents node.leaves (some node) := by
  induction h with
  | leaf value => exact .leaf value
  | @slots items ne_nil ascending children ih =>
    have hnodup := nodup_namedSlots ascending
    rw [namedSlots, List.map_map] at hnodup
    refine .slots (WellFormed.slots ne_nil ascending children).leaves_ne_nil ascending ?_ ?_
    · rw [leaves, slotLeaves_eq]
      exact fun leaf hleaf ↦ exists_of_mem_entryLeaves hleaf
    · intro name
      rw [leaves, slotLeaves_eq, within_entryLeaves .index hnodup]
      exact represents_get? (List.forall_mem_map.mpr ih) name
  | @members items ne_nil nodup children ih =>
    have hitems : (items.map fun e ↦ ((Step.key e.1).text, e.2)) = items := List.map_id items
    have hfull : ∀ e ∈ items, e.2.leaves ≠ [] := fun e he ↦ (children e he).leaves_ne_nil
    rw [leaves, memberLeaves_eq]
    refine .members nodup ?_ ?_ ?_
    · intro leaf hleaf
      obtain ⟨_, _, hcons⟩ := exists_of_mem_entryLeaves hleaf
      rw [hcons]
      exact List.cons_ne_nil _ _
    · obtain ⟨name, leaf, hmem⟩ := exists_below_mem_entryLeaves .key ne_nil hfull
      exact ⟨_, hmem, name, leaf.1, rfl⟩
    · intro name
      rw [within_entryLeaves .key nodup, hitems]
      exact represents_get? ih name

/-! ### What is found at a place -/

/-- One of the leaves has the value, and the texts of its steps are the path. -/
def Stands (leaves : List Leaf) (path : List String) (value : Scalar) : Prop :=
  ∃ steps, (steps, value) ∈ leaves ∧ steps.map Step.text = path

theorem stands_within_iff {leaves : List Leaf} {text : String} {rest : List String}
    {value : Scalar} :
    Stands (Leaf.within text leaves) rest value ↔ Stands leaves (text :: rest) value := by
  constructor
  · rintro ⟨steps, hwithin, rfl⟩
    obtain ⟨step, rfl, hmem⟩ := Leaf.mem_within.mp hwithin
    exact ⟨step :: steps, hmem, rfl⟩
  · rintro ⟨steps, hmem, htexts⟩
    obtain ⟨step, below, rfl, rfl, rfl⟩ := List.map_eq_cons_iff.mp htexts
    exact ⟨below, Leaf.mem_within.mpr ⟨step, rfl, hmem⟩, rfl⟩

theorem stands_append_iff {leaves : List Leaf} {leaf : Leaf} {path : List String}
    {value : Scalar} :
    Stands (leaves ++ [leaf]) path value ↔
      Stands leaves path value ∨ path = leaf.texts ∧ value = leaf.2 := by
  constructor
  · rintro ⟨steps, hmem, rfl⟩
    rcases List.mem_append.mp hmem with hold | hnew
    · exact .inl ⟨steps, hold, rfl⟩
    · obtain rfl := List.mem_singleton.mp hnew
      exact .inr ⟨rfl, rfl⟩
  · rintro (⟨steps, hmem, htexts⟩ | ⟨rfl, rfl⟩)
    · exact ⟨steps, List.mem_append_left _ hmem, htexts⟩
    · exact ⟨leaf.1, List.mem_append_right _ (List.mem_singleton_self leaf), rfl⟩

/-- A container has its values below the texts of its children. -/
theorem at?_container_iff {leaves : List Leaf} (node : Node) (hnode : ∀ old, node ≠ .leaf old)
    (hdeep : ∀ leaf ∈ leaves, leaf.1 ≠ [])
    (h : ∀ text path value,
      (Assoc.get? text node.entries).bind (Node.at? path) = some (.leaf value) ↔
        Stands (Leaf.within text leaves) path value)
    (path : List String) (value : Scalar) :
    node.at? path = some (.leaf value) ↔ Stands leaves path value := by
  cases path with
  | nil =>
    refine iff_of_false (fun heq ↦ hnode value (Option.some.inj heq)) ?_
    rintro ⟨steps, hmem, htexts⟩
    exact hdeep _ hmem (List.map_eq_nil_iff.mp htexts)
  | cons text rest => exact (h text rest value).trans stands_within_iff

/-- Each leaf stands at its texts, and no value stands anywhere else. -/
theorem Represents.at?_eq_leaf_iff {leaves : List Leaf} {place : Option Node}
    (h : Represents leaves place) (path : List String) (value : Scalar) :
    place.bind (Node.at? path) = some (.leaf value) ↔ Stands leaves path value := by
  induction h generalizing path value with
  | none => simp [Stands]
  | leaf old =>
    cases path with
    | nil => simp [Node.at?, Stands, eq_comm]
    | cons text rest => simp [Node.at?, Node.entries, Stands]
  | @slots leaves items _ _ indices _ ih =>
    have hdeep : ∀ leaf ∈ leaves, leaf.1 ≠ [] := by
      intro leaf hleaf
      obtain ⟨_, _, hcons⟩ := indices leaf hleaf
      rw [hcons]
      exact List.cons_ne_nil _ _
    exact at?_container_iff (.slots items) (fun _ ↦ Node.noConfusion) hdeep ih path value
  | @members _ items _ deep _ _ ih =>
    exact at?_container_iff (.members items) (fun _ ↦ Node.noConfusion) deep ih path value

/-! ### Storing at a free place -/

namespace Tree

theorem at?_place? (tree : Tree) (path : List String) (value : Scalar) :
    (Shelf.members.place? tree).bind (Node.at? path) = some (.leaf value) ↔
      (Node.members tree).at? path = some (.leaf value) := by
  cases tree with
  | nil => cases path <;> simp [Shelf.place?, Node.at?, Node.entries]
  | cons e rest => rfl

theorem WellFormed.represents {tree : Tree} (h : tree.WellFormed) :
    Represents (Node.members tree).leaves (Shelf.members.place? tree) := by
  cases tree with
  | nil => exact .none
  | cons e rest =>
    exact Node.WellFormed.represents (.members (List.cons_ne_nil e rest) h.nodup h.children)

theorem WellFormed.at?_eq_leaf_iff {tree : Tree} (h : tree.WellFormed) (path : List String)
    (value : Scalar) :
    (Node.members tree).at? path = some (.leaf value) ↔
      Stands (Node.members tree).leaves path value :=
  (at?_place? tree path value).symm.trans (h.represents.at?_eq_leaf_iff path value)

/-- A leaf whose place is free, with no value on the way to it, is apart from all leaves. -/
theorem WellFormed.apart_of_free {tree : Tree} (h : tree.WellFormed) {leaf : Leaf}
    (hway : ∀ way, way <+: leaf.texts → way ≠ leaf.texts →
      ∀ old, (Node.members tree).at? way ≠ some (.leaf old))
    (hfree : (Node.members tree).at? leaf.texts = none) :
    ∀ l ∈ (Node.members tree).leaves, l.Apart leaf := by
  intro l hl
  have hat := (h.at?_eq_leaf_iff l.texts l.2).mpr ⟨l.1, hl, rfl⟩
  constructor
  · intro hprefix
    refine hway l.texts hprefix (fun heq ↦ ?_) l.2 hat
    rw [heq, hfree] at hat
    cases hat
  · rintro ⟨more, hmore⟩
    rw [← hmore, Node.at?_append, hfree, Option.bind_none] at hat
    cases hat

/-- A leaf that is apart from all others is found where it was stored, and all others where they
were. -/
theorem WellFormed.at?_insert_iff {tree : Tree} (h : tree.WellFormed) {name : String}
    {rest : List Step} (hnamed : .append ∉ rest) {value : Scalar}
    (hapart : ∀ l ∈ (Node.members tree).leaves, l.Apart (.key name :: rest, value))
    (path : List String) (other : Scalar) :
    (Node.insert value (.key name :: rest) (.members tree)).at? path = some (.leaf other) ↔
      (Node.members tree).at? path = some (.leaf other) ∨
        path = name :: rest.map Step.text ∧ other = value := by
  have hsteps : .append ∉ Step.key name :: rest := by simpa using hnamed
  -- The root is seen as a place here: without members it is one where nothing stands yet.
  have hplace : some (store (.key name :: rest, value) (Shelf.members.place? tree)) =
      Shelf.members.place? (Assoc.alter name (store (rest, value)) tree) :=
    Shelf.members.some_store_place? name (rest, value) tree
  have hstored := h.represents.store hsteps hapart
  rw [hplace] at hstored
  calc (Node.insert value (.key name :: rest) (.members tree)).at? path = some (.leaf other)
      ↔ Stands ((Node.members tree).leaves ++ [(.key name :: rest, value)]) path other :=
        (at?_place? _ path other).symm.trans (hstored.at?_eq_leaf_iff path other)
    _ ↔ Stands (Node.members tree).leaves path other ∨
          path = name :: rest.map Step.text ∧ other = value := stands_append_iff
    _ ↔ _ := or_congr_left (h.at?_eq_leaf_iff path other).symm

end Tree

/-- Storing a value at a place where nothing stands, with no value on the way there, puts the value
at this place. At all other places the same values stand as before, whatever slots have turned into
members on the way. -/
theorem Reached.at?_insert {root : Node} (h : Reached root) {name : String} {rest : List Step}
    (hnamed : .append ∉ rest)
    (hway : ∀ way, way <+: name :: rest.map Step.text → way ≠ name :: rest.map Step.text →
      ∀ old, root.at? way ≠ some (.leaf old))
    (hfree : root.at? (name :: rest.map Step.text) = none) (value : Scalar) :
    (root.insert value (.key name :: rest)).at? (name :: rest.map Step.text) = some (.leaf value) ∧
      ∀ path, path ≠ name :: rest.map Step.text → ∀ other,
        (root.insert value (.key name :: rest)).at? path = some (.leaf other) ↔
          root.at? path = some (.leaf other) := by
  obtain ⟨tree, rfl, htree⟩ := h.exists_eq_members
  have hapart : ∀ l ∈ (Node.members tree).leaves, l.Apart (.key name :: rest, value) :=
    htree.apart_of_free hway hfree
  have hfound := htree.at?_insert_iff hnamed hapart
  refine ⟨(hfound _ value).mpr (.inr ⟨rfl, rfl⟩), fun path hpath other ↦ ?_⟩
  rw [hfound]
  exact or_iff_left fun hnew ↦ hpath hnew.1

theorem Reached.at?_insert_where_a_list_turns :
    let root := Node.members (Tree.ofParameters
      [⟨⟨"a", [.index 0]⟩, .string "x"⟩, ⟨⟨"a", [.index 2, .key "k"]⟩, .int 1⟩])
    let after := root.insert (.bool true) [.key "a", .key "b", .index 3]
    Reached root ∧ root.at? ["a", "b", "3"] = none ∧
      after.at? ["a", "b", "3"] = some (.leaf (.bool true)) ∧
      after.at? ["a", "0"] = some (.leaf (.string "x")) ∧
      after.at? ["a", "2", "k"] = some (.leaf (.int 1)) := by
  intro root after
  have hroot : Reached root := reached_ofParameters _
  have hfree : root.at? ["a", "b", "3"] = none := rfl
  have hway : ∀ way, way <+: ["a", "b", "3"] → way ≠ ["a", "b", "3"] →
      ∀ old, root.at? way ≠ some (.leaf old) := by
    intro way hprefix hne old hold
    have hmem : way ∈ [[], ["a"], ["a", "b"], ["a", "b", "3"]] := (List.mem_inits _ _).mpr hprefix
    simp only [List.mem_cons, List.not_mem_nil, or_false] at hmem
    obtain rfl | rfl | rfl | rfl := hmem
    · exact Node.noConfusion (Option.some.inj hold)
    · cases hold
    · cases hold
    · exact absurd rfl hne
  have hnamed : .append ∉ [Step.key "b", .index 3] := by decide
  obtain ⟨hnew, hold⟩ := hroot.at?_insert hnamed hway hfree (.bool true)
  exact ⟨hroot, hfree, hnew, (hold ["a", "0"] (by decide) _).mpr rfl,
    (hold ["a", "2", "k"] (by decide) _).mpr rfl⟩

end RowFilter.QueryString
