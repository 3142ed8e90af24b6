import RowFilter.Proofs.QueryString.Parameters

/-!
What a place becomes when more than one leaf comes to it. It is never a single value again
(`grow_ne_leaf`), members stay members, and no name gets lost (`hasName_grow`). Where the first leaf
is no key, the container counts: it is a list, or one of its members has a number for a name
(`counted_grow`). Where it is a key and all leaves have names, each member is what the leaves of its
name make of it (`exists_grow_eq_members`).
-/

set_option autoImplicit false

namespace RowFilter

open QueryString

/-! ### Leaves that come to members -/

namespace Leaf

/-- Whether the first step to a leaf is a key. -/
def isKeyed : Leaf → Bool
  | (.key _ :: _, _) => true
  | _ => false

/-- The name of the member that a leaf comes to among members. A value without steps is the name
itself; an append names none, and comes to the one named by the number of members. -/
def name? : Leaf → Option String
  | ([], value) => some (memberName value)
  | (.key name :: _, _) => some name
  | (.index i :: _, _) => some (toString i)
  | (.append :: _, _) => none

/-- What a leaf makes of the member that it comes to. -/
def change : Leaf → Option Node → Node
  | ([], _), _ => .leaf (.bool true)
  | (_ :: rest, value), child => store (rest, value) child

theorem exists_of_isKeyed {leaf : Leaf} (h : leaf.isKeyed = true) :
    ∃ name rest value, leaf = (.key name :: rest, value) := by
  unfold isKeyed at h
  split at h
  · exact ⟨_, _, _, rfl⟩
  · cases h

/-- The leaves that come to one member. -/
def named (name : String) (leaves : List Leaf) : List Leaf :=
  leaves.filter fun leaf ↦ leaf.name? = some name

theorem mem_named {name : String} {leaves : List Leaf} {leaf : Leaf} :
    leaf ∈ named name leaves ↔ leaf ∈ leaves ∧ leaf.name? = some name := by
  rw [named, List.mem_filter, decide_eq_true_iff]

theorem mem_of_named_eq {name : String} {leaves earlier : List Leaf} {last : Leaf}
    (h : named name leaves = earlier ++ [last]) : last ∈ leaves ∧ last.name? = some name := by
  rw [← mem_named, h]
  exact List.mem_append_right _ (List.mem_singleton_self last)

/-- What leaves make of one member, one after another. -/
def changes (leaves : List Leaf) : Option Node :=
  leaves.foldl (fun child leaf ↦ some (leaf.change child)) none

theorem changes_append_singleton (earlier : List Leaf) (last : Leaf) :
    changes (earlier ++ [last]) = some (last.change (changes earlier)) := List.foldl_append

end Leaf

namespace QueryString

theorem store_members (leaf : Leaf) (items : List (String × Node)) :
    store leaf (some (.members items)) =
      .members (Assoc.alter (leaf.name?.getD (toString items.length)) leaf.change items) := by
  obtain ⟨steps, value⟩ := leaf
  cases steps with
  | nil => rfl
  | cons step rest => cases step <;> rfl

/-- The members that a key makes of a place: none, the slots by the texts of their indices, or the
members that there are. -/
def asMembers : Option Node → List (String × Node)
  | none => []
  | some (.leaf old) => namedSlots [(0, .leaf old)]
  | some (.slots items) => namedSlots items
  | some (.members items) => items

theorem store_keyed (name : String) (rest : List Step) (value : Scalar) (place : Option Node) :
    store (.key name :: rest, value) place =
      .members (Assoc.alter name (store (rest, value)) (asMembers place)) := by
  cases place with
  | none => rfl
  | some node => cases node <;> rfl

theorem alterSlots_ne_members {step : Step} (hstep : ∀ name, step ≠ .key name)
    (f : Option Node → Node) (slots : List (Nat × Node)) (items : List (String × Node)) :
    Node.alterSlots f slots step ≠ .members items := by
  cases step with
  | key name => exact absurd rfl (hstep name)
  | index i => exact Node.noConfusion
  | append => exact Node.noConfusion

/-- Only a key makes members of what is none. -/
theorem store_ne_members {leaf : Leaf} (hleaf : leaf.isKeyed = false) {place : Option Node}
    (hplace : ∀ items, place ≠ some (.members items)) (items : List (String × Node)) :
    store leaf place ≠ .members items := by
  obtain ⟨steps, value⟩ := leaf
  cases steps with
  | nil =>
    cases place with
    | none => exact Node.noConfusion
    | some node =>
      cases node with
      | leaf old => exact Node.noConfusion
      | slots slots => exact Node.noConfusion
      | members old => exact absurd rfl (hplace old)
  | cons step rest =>
    have hstep : ∀ name, step ≠ .key name := by
      rintro name rfl
      cases hleaf
    cases place with
    | none =>
      cases step with
      | key name => exact absurd rfl (hstep name)
      | index i => exact Node.noConfusion
      | append => exact Node.noConfusion
    | some node =>
      cases node with
      | leaf old => exact alterSlots_ne_members hstep _ _ items
      | slots slots => exact alterSlots_ne_members hstep _ slots items
      | members old => exact absurd rfl (hplace old)

theorem grow_ne_members {leaves : List Leaf} (hleaves : ∀ leaf ∈ leaves, leaf.isKeyed = false)
    {place : Option Node} (hplace : ∀ items, place ≠ some (.members items))
    (items : List (String × Node)) : grow leaves place ≠ some (.members items) := by
  induction leaves generalizing place with
  | nil => exact hplace items
  | cons leaf rest ih =>
    obtain ⟨hleaf, hrest⟩ := List.forall_mem_cons.mp hleaves
    exact ih hrest fun items heq ↦ store_ne_members hleaf hplace items (Option.some.inj heq)

/-- A place where something stands does not become a single value. -/
theorem store_some_ne_leaf (leaf : Leaf) (node : Node) (value : Scalar) :
    store leaf (some node) ≠ .leaf value := by
  obtain ⟨steps, new⟩ := leaf
  cases steps with
  | nil => cases node <;> exact Node.noConfusion
  | cons step rest => cases node <;> cases step <;> exact Node.noConfusion

theorem exists_grow_some (leaves : List Leaf) (node : Node) :
    ∃ node', grow leaves (some node) = some node' := by
  induction leaves generalizing node with
  | nil => exact ⟨node, rfl⟩
  | cons leaf rest ih => exact ih (store leaf (some node))

/-- What two leaves or more merge into is no single value. -/
theorem grow_ne_leaf {leaves : List Leaf} (hfurther : 2 ≤ leaves.length) {node : Node}
    (hnode : grow leaves none = some node) (value : Scalar) : node ≠ .leaf value := by
  obtain ⟨first, second, rest, rfl⟩ : ∃ first second rest, leaves = first :: second :: rest := by
    match leaves, hfurther with
    | first :: second :: rest, _ => exact ⟨first, second, rest, rfl⟩
  rcases List.eq_nil_or_concat' rest with rfl | ⟨init, last, rfl⟩
  · cases hnode
    exact store_some_ne_leaf second _ value
  · obtain ⟨old, hold⟩ := exists_grow_some init (store second (some (store first none)))
    rw [grow_cons, grow_cons, grow_append, hold] at hnode
    cases hnode
    exact store_some_ne_leaf last old value

/-! ### Names stay -/

/-- The node is members, one of which has the name. -/
def Node.HasName (name : String) : Node → Prop
  | .members items => name ∈ items.map Prod.fst
  | _ => False

theorem Node.HasName.exists_eq_members {name : String} {node : Node} (h : node.HasName name) :
    ∃ items, node = .members items := by
  cases node with
  | leaf _ => exact h.elim
  | slots _ => exact h.elim
  | members items => exact ⟨items, rfl⟩

theorem hasName_store {name : String} {node : Node} (h : node.HasName name) (leaf : Leaf) :
    (store leaf (some node)).HasName name := by
  obtain ⟨items, rfl⟩ := h.exists_eq_members
  rw [store_members]
  exact Assoc.mem_keys_alter.mpr (.inr h)

theorem hasName_grow {name : String} (leaves : List Leaf) {node : Node} (h : node.HasName name) :
    ∃ node', grow leaves (some node) = some node' ∧ node'.HasName name := by
  induction leaves generalizing node with
  | nil => exact ⟨node, rfl, h⟩
  | cons leaf rest ih => exact ih (hasName_store h leaf)

/-- From a key on every leaf leaves a name, its own or a number. -/
theorem exists_hasName_of_mem {first leaf : Leaf} {later : List Leaf}
    (hfirst : first.isKeyed = true) (hleaf : leaf ∈ first :: later) (place : Option Node) :
    ∃ node name, grow (first :: later) place = some node ∧ node.HasName name ∧
      (leaf.name? = some name ∨ leaf.name? = none ∧ ∃ i : Nat, name = toString i) := by
  obtain ⟨key, rest, value, rfl⟩ := Leaf.exists_of_isKeyed hfirst
  have hkey : (store (.key key :: rest, value) place).HasName key := by
    rw [store_keyed]
    exact Assoc.mem_keys_alter.mpr (.inl rfl)
  rcases List.mem_cons.mp hleaf with rfl | hleaf
  · obtain ⟨node, hnode, hname⟩ := hasName_grow later hkey
    exact ⟨node, key, hnode, hname, .inl rfl⟩
  · obtain ⟨before, behind, rfl⟩ := List.append_of_mem hleaf
    obtain ⟨node, hnode, hhas⟩ := hasName_grow before hkey
    obtain ⟨items, rfl⟩ := hhas.exists_eq_members
    have hstored : (store leaf (some (.members items))).HasName
        (leaf.name?.getD (toString items.length)) := by
      rw [store_members]
      exact Assoc.mem_keys_alter.mpr (.inl rfl)
    obtain ⟨node, hgrow, hname⟩ := hasName_grow behind hstored
    refine ⟨node, _, ?_, hname, ?_⟩
    · rw [grow_cons, grow_append, hnode, grow_cons]
      exact hgrow
    · cases leaf.name? with
      | none => exact .inr ⟨rfl, _, rfl⟩
      | some name => exact .inl rfl

theorem cases_of_mem_asMembers {name : String} {place : Option Node}
    (h : name ∈ (asMembers place).map Prod.fst) :
    (∃ node ∈ place, node.HasName name) ∨ ∃ i : Nat, name = toString i := by
  have hslots {items : List (Nat × Node)} (hmem : name ∈ (namedSlots items).map Prod.fst) :
      ∃ i : Nat, name = toString i := by
    rw [namedSlots, List.map_map] at hmem
    obtain ⟨e, -, rfl⟩ := List.mem_map.mp hmem
    exact ⟨e.1, rfl⟩
  cases place with
  | none => cases h
  | some node =>
    cases node with
    | leaf old => exact .inr (hslots h)
    | slots items => exact .inr (hslots h)
    | members items => exact .inl ⟨_, rfl, h⟩

/-- A name is one that was there, the name of the leaf or a number. -/
theorem cases_of_hasName_store {name : String} {leaf : Leaf} {place : Option Node}
    (h : (store leaf place).HasName name) :
    (∃ node ∈ place, node.HasName name) ∨ leaf.name? = some name ∨
      ∃ i : Nat, name = toString i := by
  by_cases hplace : ∃ items, place = some (.members items)
  · obtain ⟨items, rfl⟩ := hplace
    rw [store_members] at h
    rcases Assoc.mem_keys_alter.mp h with hname | hmem
    · cases hown : leaf.name? with
      | none => exact .inr (.inr ⟨items.length, by rw [hname, hown, Option.getD_none]⟩)
      | some own => exact .inr (.inl (by rw [hname, hown, Option.getD_some]))
    · exact .inl ⟨_, rfl, hmem⟩
  · have hnone : ∀ items, place ≠ some (.members items) := fun items heq ↦ hplace ⟨items, heq⟩
    by_cases hleaf : leaf.isKeyed = true
    · obtain ⟨key, rest, value, rfl⟩ := Leaf.exists_of_isKeyed hleaf
      rw [store_keyed] at h
      rcases Assoc.mem_keys_alter.mp h with rfl | hmem
      · exact .inr (.inl rfl)
      · exact (cases_of_mem_asMembers hmem).imp_right .inr
    · obtain ⟨items, hstored⟩ := h.exists_eq_members
      exact absurd hstored (store_ne_members (eq_false_of_ne_true hleaf) hnone items)

theorem cases_of_hasName_grow {name : String} {leaves : List Leaf} {place : Option Node}
    {node : Node} (hnode : grow leaves place = some node) (h : node.HasName name) :
    (∃ old ∈ place, old.HasName name) ∨ (∃ leaf ∈ leaves, leaf.name? = some name) ∨
      ∃ i : Nat, name = toString i := by
  induction leaves generalizing place with
  | nil => exact .inl ⟨node, hnode, h⟩
  | cons leaf rest ih =>
    rcases ih hnode with ⟨old, hold, hname⟩ | ⟨l, hl, hname⟩ | hnumber
    · cases hold
      rcases cases_of_hasName_store hname with hplace | hleaf | hnumber
      · exact .inl hplace
      · exact .inr (.inl ⟨leaf, List.mem_cons_self, hleaf⟩)
      · exact .inr (.inr hnumber)
    · exact .inr (.inl ⟨l, List.mem_cons_of_mem _ hl, hname⟩)
    · exact .inr (.inr hnumber)

theorem grow_members {leaves : List Leaf} (hnames : ∀ leaf ∈ leaves, leaf.name?.isSome)
    (items : List (String × Node)) :
    grow leaves (some (.members items)) = some (.members (leaves.foldl
      (fun items leaf ↦ Assoc.alter (leaf.name?.getD "") leaf.change items) items)) := by
  induction leaves generalizing items with
  | nil => rfl
  | cons leaf rest ih =>
    obtain ⟨hleaf, hrest⟩ := List.forall_mem_cons.mp hnames
    obtain ⟨name, hname⟩ := Option.isSome_iff_exists.mp hleaf
    rw [grow_cons, store_members, ih hrest, List.foldl_cons, hname, Option.getD_some,
      Option.getD_some]

/-- If all leaves have names and the first begins with a key, they merge into members, and each
member is what the leaves of its name make of it. -/
theorem exists_grow_eq_members {first : Leaf} {later : List Leaf} (hfirst : first.isKeyed = true)
    (hnames : ∀ leaf ∈ first :: later, leaf.name?.isSome) :
    ∃ items, grow (first :: later) none = some (.members items) ∧
      ∀ name child, (name, child) ∈ items ↔ ∃ earlier last,
        Leaf.named name (first :: later) = earlier ++ [last] ∧
          child = last.change (Leaf.changes earlier) := by
  have hstart : grow (first :: later) none = grow (first :: later) (some (.members [])) := by
    obtain ⟨key, rest, value, rfl⟩ := Leaf.exists_of_isKeyed hfirst
    rw [grow_cons, grow_cons, store_keyed, store_keyed]
    rfl
  refine ⟨_, hstart.trans (grow_members hnames []), fun name child ↦ ?_⟩
  have hnamed : ((first :: later).filter fun leaf ↦ leaf.name?.getD "" = name) =
      Leaf.named name (first :: later) := by
    refine List.filter_congr fun leaf hleaf ↦ ?_
    obtain ⟨own, hown⟩ := Option.isSome_iff_exists.mp (hnames leaf hleaf)
    simp [hown]
  have hempty : (([] : List (String × Node)).map Prod.fst).Nodup := List.nodup_nil
  have hnodup := Assoc.nodup_keys_foldl_alter (fun leaf : Leaf ↦ leaf.name?.getD "") Leaf.change
    (first :: later) hempty
  rw [← Assoc.get?_eq_some_iff_mem hnodup,
    Assoc.get?_foldl_alter (fun leaf : Leaf ↦ leaf.name?.getD "") Leaf.change, hnamed]
  constructor
  · intro hchild
    rcases List.eq_nil_or_concat' (Leaf.named name (first :: later)) with
      hnone | ⟨earlier, last, heq⟩
    · rw [hnone] at hchild
      cases hchild
    · rw [heq] at hchild
      exact ⟨earlier, last, heq,
        Option.some.inj (hchild.symm.trans (Leaf.changes_append_singleton earlier last))⟩
  · rintro ⟨earlier, last, heq, rfl⟩
    rw [heq]
    exact Leaf.changes_append_singleton earlier last

/-! ### Numbers stay -/

/-- Nothing but a number can be a name of the node, or one of its names is a number. -/
def Node.Counted : Node → Prop
  | .leaf _ => True
  | .slots items => items ≠ []
  | .members items => ∃ i : Nat, toString i ∈ items.map Prod.fst

theorem counted_fresh {leaf : Leaf} (h : leaf.isKeyed = false) :
    (Node.fresh leaf.2 leaf.1).Counted := by
  obtain ⟨steps, value⟩ := leaf
  cases steps with
  | nil => trivial
  | cons step rest =>
    cases step with
    | key name => cases h
    | index i => exact List.cons_ne_nil _ _
    | append => exact List.cons_ne_nil _ _

theorem counted_alterSlots {items : List (Nat × Node)} (h : items ≠ []) (f : Option Node → Node)
    (step : Step) : (Node.alterSlots f items step).Counted := by
  cases step with
  | key name =>
    obtain ⟨e, rest, rfl⟩ := List.exists_cons_of_ne_nil h
    exact ⟨e.1, Assoc.mem_keys_alter.mpr (.inr List.mem_cons_self)⟩
  | index i => exact Assoc.alterSorted_ne_nil i f items
  | append => exact List.append_ne_nil_of_left_ne_nil h _

theorem counted_store {node : Node} (h : node.Counted) (leaf : Leaf) :
    (store leaf (some node)).Counted := by
  obtain ⟨steps, value⟩ := leaf
  cases node with
  | leaf old =>
    cases steps with
    | nil => exact List.cons_ne_nil _ _
    | cons step rest => exact counted_alterSlots (List.cons_ne_nil _ _) _ step
  | slots items =>
    cases steps with
    | nil => exact List.append_ne_nil_of_left_ne_nil h _
    | cons step rest => exact counted_alterSlots h _ step
  | members items =>
    obtain ⟨i, hi⟩ := h
    rw [store_members]
    exact ⟨i, Assoc.mem_keys_alter.mpr (.inr hi)⟩

/-- A container whose first leaf is no key counts. -/
theorem counted_grow {first : Leaf} (hfirst : first.isKeyed = false) (later : List Leaf) :
    ∃ node, grow (first :: later) none = some node ∧ node.Counted := by
  suffices h : ∀ node : Node, node.Counted → ∃ node', grow later (some node) = some node' ∧
      node'.Counted from h _ (counted_fresh hfirst)
  induction later with
  | nil => exact fun node h ↦ ⟨node, rfl, h⟩
  | cons leaf rest ih => exact fun node h ↦ ih _ (counted_store h leaf)

end QueryString

end RowFilter
