import Mathlib.Data.List.Forall2
import RowFilter.Proofs.QueryString.Accumulation
import RowFilter.Proofs.QueryString.Merging

/-!
The roots that stores lead to. A store keeps the root an object with distinct names and well-formed
nodes below it, so every root that is reached is one (`Reached.exists_eq_members`). Three things
follow (`Reached.wellFormed_lossless`). A store may make its containers empty and fill them
afterwards: no other container is ever empty, so a value never takes the place of one. An object may
take its members one after another, each name once: no name comes twice, so no member is dropped.
And the decoded value shows the leaves of the tree, one for one and in their order.
-/

set_option autoImplicit false

namespace RowFilter

open QueryString

namespace QueryString

open Assoc (Ascending)

/-! ### Stores at the root -/

/-- The roots that stores lead to, one after another, from an object without members on. The steps
of a store may be any, also none. -/
inductive Reached : Node → Prop
  | empty : Reached (.members [])
  | insert {root : Node} (earlier : Reached root) (steps : List Step) (value : Scalar) :
      Reached (root.insert value steps)

theorem keeps_change (leaf : Leaf) : Node.Keeps leaf.change := by
  obtain ⟨steps, value⟩ := leaf
  cases steps with
  | nil => exact Node.keeps_leaf (.bool true)
  | cons step rest => exact keeps_store (rest, value)

/-- One store keeps the root an object with distinct names and well-formed nodes below it. -/
theorem Tree.WellFormed.exists_insert {tree : Tree} (h : tree.WellFormed) (steps : List Step)
    (value : Scalar) :
    ∃ tree' : Tree,
      Node.insert value steps (.members tree) = .members tree' ∧ tree'.WellFormed := by
  refine ⟨_, store_members (steps, value) tree, ?_⟩
  cases Node.WellFormed.alter (keeps_change (steps, value)) h.nodup h.children _ with
  | members _ nodup children => exact ⟨nodup, children⟩

theorem Reached.exists_eq_members {root : Node} (h : Reached root) :
    ∃ tree : Tree, root = .members tree ∧ tree.WellFormed := by
  induction h with
  | empty => exact ⟨[], rfl, List.nodup_nil, List.forall_mem_nil _⟩
  | insert _ steps value ih =>
    obtain ⟨tree, rfl, htree⟩ := ih
    exact htree.exists_insert steps value

/-- A root is a well-formed node, but for the object that nothing has been stored in. -/
theorem Reached.empty_or_wellFormed {root : Node} (h : Reached root) :
    root = .members [] ∨ root.WellFormed := by
  obtain ⟨tree, rfl, hnodup, hchildren⟩ := h.exists_eq_members
  cases tree with
  | nil => exact .inl rfl
  | cons e rest => exact .inr (.members (List.cons_ne_nil e rest) hnodup hchildren)

/-- What parameters build up is reached by storing each under its root and steps. -/
theorem reached_ofParameters (ps : List Parameter) : Reached (.members (Tree.ofParameters ps)) := by
  induction ps using List.reverseRecOn with
  | nil => exact .empty
  | append_singleton init p ih =>
    rw [Tree.ofParameters_append_singleton]
    exact ih.insert (.key p.path.root :: p.path.steps) p.value

namespace Node

/-! ### Containers that are made empty -/

/-- The empty container for what is stored below it: members for a key, slots for anything else. -/
def blank : List Step → Node
  | .key _ :: _ => .members []
  | _ => .slots []

/-- Whether the node is a container without entries. -/
def isBlank : Node → Bool
  | .leaf _ => false
  | .slots items => items.isEmpty
  | .members items => items.isEmpty

/-- Stores a value under a path, where a blank is put at each place that nothing stands at, and the
value takes the place of the blank that the path ends at. -/
def insertOnBlank (value : Scalar) : List Step → Node → Node
  | [], node => node.add value
  | step :: rest, node =>
    node.alterChild (fun child ↦
      let place := child.getD (blank rest)
      if rest.isEmpty && place.isBlank then .leaf value else insertOnBlank value rest place) step

theorem isBlank_blank (steps : List Step) : (blank steps).isBlank = true := by
  unfold blank
  split <;> rfl

theorem WellFormed.isBlank_eq_false {node : Node} (h : node.WellFormed) : node.isBlank = false := by
  cases h with
  | leaf value => rfl
  | slots ne_nil _ _ => exact List.isEmpty_eq_false_iff.mpr ne_nil
  | members ne_nil _ _ => exact List.isEmpty_eq_false_iff.mpr ne_nil

theorem child?_eq_none_of_isBlank {node : Node} (h : node.isBlank = true) (step : Step) :
    node.child? step = none := by
  cases node with
  | leaf value => cases h
  | slots items =>
    obtain rfl := List.isEmpty_iff.mp h
    cases step <;> rfl
  | members items =>
    obtain rfl := List.isEmpty_iff.mp h
    cases step <;> rfl

/-- A container with one child on the way to a value is what a store makes of a blank. -/
theorem insert_blank (value : Scalar) (step : Step) (rest : List Step) :
    Node.insert value (step :: rest) (blank (step :: rest)) = fresh value (step :: rest) := by
  cases step <;> rfl

theorem alterSlots_congr {items : List (Nat × Node)} (h : Ascending items) {step : Step}
    {f g : Option Node → Node} (hsame : f (slotAt? items step) = g (slotAt? items step)) :
    alterSlots f items step = alterSlots g items step := by
  cases step with
  | key name => exact congrArg Node.members (Assoc.alter_congr hsame)
  | index i => exact congrArg Node.slots (Assoc.alterSorted_congr h hsame)
  | append => exact congrArg (fun child ↦ Node.slots (items ++ [(nextIndex items, child)])) hsame

theorem alterMembers_congr {items : List (String × Node)} {step : Step} {f g : Option Node → Node}
    (hsame : f (memberAt? items step) = g (memberAt? items step)) :
    alterMembers f items step = alterMembers g items step := by
  cases step <;> exact congrArg Node.members (Assoc.alter_congr hsame)

/-- A change of the child matters for what it makes of the child that there is. -/
theorem alterChild_congr {node : Node} (h : node.isBlank = true ∨ node.WellFormed) {step : Step}
    {f g : Option Node → Node} (hsame : f (node.child? step) = g (node.child? step)) :
    node.alterChild f step = node.alterChild g step := by
  cases node with
  | leaf old => exact alterSlots_congr (ascending_singleton 0 (.leaf old)) hsame
  | slots items =>
    have hascending : Ascending items := by
      rcases h with hblank | hwell
      · rw [List.isEmpty_iff.mp hblank]
        exact List.Pairwise.nil
      · cases hwell with
        | slots _ ascending _ => exact ascending
    exact alterSlots_congr hascending hsame
  | members items => exact alterMembers_congr hsame

/-- No container but a new one is blank, so making containers empty first comes to the same. -/
theorem insertOnBlank_eq {node : Node} (h : node.isBlank = true ∨ node.WellFormed) (value : Scalar)
    (steps : List Step) : insertOnBlank value steps node = Node.insert value steps node := by
  induction steps generalizing node with
  | nil => rfl
  | cons step rest ih =>
    refine alterChild_congr h ?_
    cases hchild : node.child? step with
    | none =>
      -- A blank is put there, and to store below a blank is to make a new path.
      cases rest with
      | nil => rfl
      | cons next more => exact (ih (.inl (isBlank_blank _))).trans (insert_blank value next more)
    | some child =>
      rcases h with hblank | hwell
      · cases hchild.symm.trans (child?_eq_none_of_isBlank hblank step)
      · -- What stands there already is no blank, so the value cannot take its place.
        have hbelow := hwell.child hchild
        simp only [Option.getD_some, Option.elim_some, hbelow.isBlank_eq_false, Bool.and_false,
          Bool.false_eq_true, if_false]
        exact ih (.inr hbelow)

/-! ### Members taken one after another -/

mutual

/-- The decoded value with objects that take their members one after another: a name that has come
before keeps its place and gets the later value. -/
def gather : Node → Json
  | .leaf value => .scalar value
  | .slots items => .array (gatherSlots items)
  | .members items => .object (Assoc.ofMembers (gatherMembers items))

def gatherSlots : List (Nat × Node) → List Json
  | [] => []
  | (_, node) :: rest => node.gather :: gatherSlots rest

def gatherMembers : List (String × Node) → List (String × Json)
  | [] => []
  | (name, node) :: rest => (name, node.gather) :: gatherMembers rest

end

theorem gatherSlots_eq {items : List (Nat × Node)} (h : ∀ e ∈ items, e.2.gather = e.2.toJson) :
    gatherSlots items = slotValues items := by
  induction items with
  | nil => rfl
  | cons e rest ih =>
    obtain ⟨he, hrest⟩ := List.forall_mem_cons.mp h
    rw [gatherSlots, slotValues, he, ih hrest]

theorem gatherMembers_eq {items : List (String × Node)}
    (h : ∀ e ∈ items, e.2.gather = e.2.toJson) : gatherMembers items = memberValues items := by
  induction items with
  | nil => rfl
  | cons e rest ih =>
    obtain ⟨he, hrest⟩ := List.forall_mem_cons.mp h
    rw [gatherMembers, memberValues, he, ih hrest]

/-- Nothing of a well-formed node is dropped. -/
theorem WellFormed.gather_eq {node : Node} (h : node.WellFormed) : node.gather = node.toJson := by
  induction h with
  | leaf value => rfl
  | slots _ _ _ ih => rw [gather, gatherSlots_eq ih, toJson]
  | members _ nodup _ ih =>
    rw [← map_fst_memberValues] at nodup
    rw [gather, gatherMembers_eq ih, Assoc.ofMembers_eq_self nodup, toJson]

/-! ### Leaves -/

mutual

/-- The values of a node in their order, each with the steps that lead to it: the indices of the
slots and the names of the members on the way. -/
def leaves : Node → List Leaf
  | .leaf value => [([], value)]
  | .slots items => slotLeaves items
  | .members items => memberLeaves items

def slotLeaves : List (Nat × Node) → List Leaf
  | [] => []
  | (i, node) :: rest => node.leaves.map (Leaf.below (.index i)) ++ slotLeaves rest

def memberLeaves : List (String × Node) → List Leaf
  | [] => []
  | (name, node) :: rest => node.leaves.map (Leaf.below (.key name)) ++ memberLeaves rest

end

end Node

/-- A step of the decoded value that shows one of the tree: a name shows itself, and an index shows
one that is at least as large, as lists are decoded without their gaps. -/
inductive Step.Shows : Step → Step → Prop
  | key (name : String) : Shows (.key name) (.key name)
  | index {place i : Nat} (le : place ≤ i) : Shows (.index place) (.index i)

end QueryString

/-- A leaf of the decoded value that shows one of the tree: the same value, and every step on the
way shows the one that it stands for. -/
def Leaf.Shows (shown held : Leaf) : Prop :=
  shown.2 = held.2 ∧ List.Forall₂ Step.Shows shown.1 held.1

namespace QueryString

open Assoc (Ascending)

theorem shows_map_below {shown held : List Leaf} (h : List.Forall₂ Leaf.Shows shown held)
    {first second : Step} (hstep : Step.Shows first second) :
    List.Forall₂ Leaf.Shows (shown.map (Leaf.below first)) (held.map (Leaf.below second)) := by
  rw [List.forall₂_map_left_iff, List.forall₂_map_right_iff]
  exact h.imp fun _ _ hleaf ↦ ⟨hleaf.1, .cons hstep hleaf.2⟩

/-- Slots that ascend show in order, each at a place that is not behind its index. -/
theorem shows_slotLeaves {items : List (Nat × Node)} (hascending : Ascending items)
    (h : ∀ e ∈ items, List.Forall₂ Leaf.Shows e.2.toJson.leaves e.2.leaves) {place : Nat}
    (hplace : ∀ e ∈ items, place ≤ e.1) :
    List.Forall₂ Leaf.Shows (Json.itemLeaves place (Node.slotValues items))
      (Node.slotLeaves items) := by
  induction items generalizing place with
  | nil => exact .nil
  | cons e rest ih =>
    obtain ⟨he, hrest⟩ := List.forall_mem_cons.mp h
    obtain ⟨hbehind, hascending⟩ := List.pairwise_cons.mp hascending
    have hfirst : place ≤ e.1 := hplace e List.mem_cons_self
    rw [Node.slotValues, Json.itemLeaves, Node.slotLeaves]
    refine List.rel_append (shows_map_below he (.index hfirst)) (ih hascending hrest ?_)
    exact fun d hd ↦ Nat.lt_of_le_of_lt hfirst (hbehind d hd)

theorem shows_memberLeaves {items : List (String × Node)}
    (h : ∀ e ∈ items, List.Forall₂ Leaf.Shows e.2.toJson.leaves e.2.leaves) :
    List.Forall₂ Leaf.Shows (Json.memberLeaves (Node.memberValues items))
      (Node.memberLeaves items) := by
  induction items with
  | nil => exact .nil
  | cons e rest ih =>
    obtain ⟨he, hrest⟩ := List.forall_mem_cons.mp h
    rw [Node.memberValues, Json.memberLeaves, Node.memberLeaves]
    exact List.rel_append (shows_map_below he (.key e.1)) (ih hrest)

theorem Node.WellFormed.shows_leaves {node : Node} (h : node.WellFormed) :
    List.Forall₂ Leaf.Shows node.toJson.leaves node.leaves := by
  induction h with
  | leaf value => exact .cons ⟨rfl, .nil⟩ .nil
  | slots _ ascending _ ih =>
    rw [toJson, Json.leaves, leaves]
    exact shows_slotLeaves ascending ih fun _ _ ↦ Nat.zero_le _
  | members _ _ _ ih =>
    rw [toJson, Json.leaves, leaves]
    exact shows_memberLeaves ih

/-! ### Reached roots -/

theorem Reached.gather_eq {root : Node} (h : Reached root) : root.gather = root.toJson := by
  rcases h.empty_or_wellFormed with rfl | hwell
  · rfl
  · exact hwell.gather_eq

theorem Reached.shows_leaves {root : Node} (h : Reached root) :
    List.Forall₂ Leaf.Shows root.toJson.leaves root.leaves := by
  rcases h.empty_or_wellFormed with rfl | hwell
  · exact .nil
  · exact hwell.shows_leaves

theorem Reached.insertOnBlank_eq {root : Node} (h : Reached root) (value : Scalar)
    (steps : List Step) : root.insertOnBlank value steps = root.insert value steps := by
  refine Node.insertOnBlank_eq ?_ value steps
  rcases h.empty_or_wellFormed with rfl | hwell
  · exact .inl rfl
  · exact .inr hwell

/-- Whatever has been stored, the root is an object, names are distinct at every level, and below
the root no container is empty. So a store may make containers empty before it fills them, no member
is dropped where objects take their members one after another, and the decoded value has as many
leaves as the tree and shows each of them, in the same order. -/
theorem Reached.wellFormed_lossless {root : Node} (h : Reached root) :
    (∃ tree : Tree, root = .members tree ∧ tree.WellFormed) ∧
      (∀ value steps, root.insertOnBlank value steps = root.insert value steps) ∧
      root.gather = root.toJson ∧
      root.toJson.leaves.length = root.leaves.length ∧
      List.Forall₂ Leaf.Shows root.toJson.leaves root.leaves :=
  ⟨h.exists_eq_members, h.insertOnBlank_eq, h.gather_eq, h.shows_leaves.length_eq, h.shows_leaves⟩

theorem Reached.wellFormed_lossless_of_gaps_and_names :
    let root := Node.insert (.string "c") [] (.members (Tree.ofParameters
      [⟨⟨"a", [.index 3]⟩, .string "x"⟩, ⟨⟨"a", [.key "n"]⟩, .int 1⟩,
        ⟨⟨"b", [.index 7, .append]⟩, .int 2⟩]))
    Reached root ∧ root.gather = root.toJson ∧
      root.leaves = [([.key "a", .key "3"], .string "x"), ([.key "a", .key "n"], .int 1),
        ([.key "b", .index 7, .index 0], .int 2), ([.key "c"], .bool true)] ∧
      root.toJson.leaves.length = 4 := by
  intro root
  have hroot : Reached root := (reached_ofParameters _).insert [] (.string "c")
  obtain ⟨-, -, hgather, hlength, -⟩ := hroot.wellFormed_lossless
  exact ⟨hroot, hgather, rfl, hlength⟩

end QueryString

end RowFilter
