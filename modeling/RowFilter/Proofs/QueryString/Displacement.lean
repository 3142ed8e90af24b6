import Mathlib.Data.List.Induction
import RowFilter.Proofs.QueryString.Accumulation
import RowFilter.Proofs.QueryString.Merging

/-!
A value that a list holds by itself, and what becomes of it when leaves come to it. It turns into a
container that has the value first, and stays recognisable as one (`Bare.store`), unless a later
value takes the place of the member that it has become. So a list in which a value has come by
itself keeps such an item as long as no member is displaced (`blocked_grow`).
-/

set_option autoImplicit false

namespace RowFilter.QueryString

open Assoc (Ascending)

/-! ### A value by itself -/

/-- What becomes of a value in a list when leaves come to it: the value itself, or a container that
has it first, alone only if it has become a container. -/
inductive Bare : Node → Prop
  | leaf (value : Scalar) : Bare (.leaf value)
  | slots {child : Node} {rest : List (Nat × Node)} (first : Bare child)
      (more : rest ≠ [] ∨ ∀ value, child ≠ .leaf value) : Bare (.slots ((0, child) :: rest))
  | members {child : Node} {rest : List (String × Node)} (first : Bare child)
      (more : rest ≠ [] ∨ ∀ value, child ≠ .leaf value) : Bare (.members (("0", child) :: rest))

section Bare

variable {child : Node} {step : Step} {rest : List Step} {value : Scalar}

theorem bare_alter {name : String} (hchild : Bare child)
    (hstore : name = "0" → Bare (store (rest, value) (some child)))
    (items : List (String × Node)) :
    Bare (.members (Assoc.alter name (store (rest, value)) (("0", child) :: items))) := by
  unfold Assoc.alter
  split
  · rename_i hname
    exact .members (hstore hname.symm) (.inr (store_some_ne_leaf (rest, value) child))
  · exact .members hchild (.inl (Assoc.alter_ne_nil name _ items))

theorem bare_alterSlots (hchild : Bare child) (items : List (Nat × Node))
    (hstore : slotAt? ((0, child) :: items) step = some child →
      Bare (store (rest, value) (some child))) :
    Bare (Node.alterSlots (store (rest, value)) ((0, child) :: items) step) := by
  cases step with
  | key name =>
    have hzero : toString 0 = "0" := by decide
    have hnamed : namedSlots ((0, child) :: items) = ("0", child) :: namedSlots items := by
      rw [← hzero]
      rfl
    rw [slotAt?, hnamed] at hstore
    rw [Node.alterSlots, hnamed]
    exact bare_alter hchild (fun hname ↦ hstore (if_pos hname.symm)) (namedSlots items)
  | index i =>
    rw [Node.alterSlots, Assoc.alterSorted]
    split
    · exact .slots hchild (.inl (Assoc.alterSorted_ne_nil i _ items))
    · split
      · rename_i hindex
        exact .slots (hstore (if_pos hindex)) (.inr (store_some_ne_leaf (rest, value) child))
      · omega
  | append =>
    exact .slots hchild (.inl (List.append_ne_nil_of_right_ne_nil _ (List.cons_ne_nil _ _)))

theorem bare_alterMembers (hchild : Bare child) (items : List (String × Node))
    (hstore : memberAt? (("0", child) :: items) step = some child →
      Bare (store (rest, value) (some child))) :
    Bare (Node.alterMembers (store (rest, value)) (("0", child) :: items) step) := by
  cases step <;> exact bare_alter hchild (fun hname ↦ hstore (if_pos hname.symm)) items

/-- A leaf that displaces no member keeps what has become of a value by itself. -/
theorem Bare.store {node : Node} (h : Bare node) {leaf : Leaf}
    (hkept : displacedAt leaf (some node) = none) : Bare (QueryString.store leaf (some node)) := by
  obtain ⟨steps, value⟩ := leaf
  -- By induction on the steps: only a leaf that leads to the first child changes it, with one step
  -- less, and all others stand behind it.
  induction steps generalizing node with
  | nil =>
    cases h with
    | leaf old => exact .slots (.leaf old) (.inl (List.cons_ne_nil _ _))
    | slots first _ =>
      exact .slots first (.inl (List.append_ne_nil_of_right_ne_nil _ (List.cons_ne_nil _ _)))
    | @members child items first _ =>
      have hname : "0" ≠ memberName value := by
        intro hname
        have hfound : Assoc.get? (memberName value) (("0", child) :: items) = some child :=
          if_pos hname
        cases hfound.symm.trans hkept
      have hbehind (change : Option Node → Node) :
          Assoc.alter (memberName value) change (("0", child) :: items) =
            ("0", child) :: Assoc.alter (memberName value) change items := if_neg hname
      rw [store_members, Leaf.name?, Option.getD_some, hbehind]
      exact .members first (.inl (Assoc.alter_ne_nil _ _ items))
  | cons step rest ih =>
    have hstore {child : Node} (hchild : Bare child) (hat : node.child? step = some child) :
        Bare (QueryString.store (rest, value) (some child)) := by
      have hbelow : (node.child? step).bind (Node.displaced? value rest) = none := hkept
      rw [hat] at hbelow
      exact ih hchild hbelow
    cases h with
    | leaf old => exact bare_alterSlots (.leaf old) [] (hstore (.leaf old))
    | slots first _ => exact bare_alterSlots first _ (hstore first)
    | members first _ => exact bare_alterMembers first _ (hstore first)

end Bare

/-! ### A value in a list of groups -/

/-- The node is no list, or one of its items has grown out of a value by itself. -/
def Node.Blocked : Node → Prop
  | .leaf _ => True
  | .slots items => ∃ i child, Assoc.get? i items = some child ∧ Bare child
  | .members _ => True

theorem blocked_alterSorted {items : List (Nat × Node)} (hascending : Ascending items)
    {i : Nat} {child : Node} (hat : Assoc.get? i items = some child) (hchild : Bare child)
    {j : Nat} {change : Option Node → Node} (hchange : i = j → Bare (change (some child))) :
    (Node.slots (Assoc.alterSorted j change items)).Blocked := by
  by_cases hij : i = j
  · subst hij
    refine ⟨i, _, ?_, hchange rfl⟩
    rw [Assoc.get?_alterSorted hascending, if_pos rfl, hat]
  · refine ⟨i, child, ?_, hchild⟩
    rw [Assoc.get?_alterSorted hascending, if_neg hij, hat]

/-- Behind all slots no slot is changed. -/
theorem blocked_append {items : List (Nat × Node)} (hascending : Ascending items)
    (h : (Node.slots items).Blocked) (node : Node) :
    (Node.slots (items ++ [(nextIndex items, node)])).Blocked := by
  obtain ⟨i, child, hat, hchild⟩ := h
  rw [append_nextIndex hascending fun _ ↦ node]
  refine blocked_alterSorted hascending hat hchild fun hi ↦ ?_
  rw [hi, get?_nextIndex hascending] at hat
  cases hat

theorem blocked_alterSlots {items : List (Nat × Node)} (hascending : Ascending items)
    (h : (Node.slots items).Blocked) {step : Step} {rest : List Step} {value : Scalar}
    (hkept : (slotAt? items step).bind (Node.displaced? value rest) = none) :
    (Node.alterSlots (store (rest, value)) items step).Blocked := by
  cases step with
  | key name => trivial
  | index j =>
    obtain ⟨i, child, hat, hchild⟩ := h
    refine blocked_alterSorted hascending hat hchild fun hi ↦ ?_
    subst hi
    rw [slotAt?, hat] at hkept
    exact hchild.store hkept
  | append => exact blocked_append hascending h _

theorem blocked_store {node : Node} (hwell : node.WellFormed) (h : node.Blocked) {leaf : Leaf}
    (hkept : displacedAt leaf (some node) = none) : (store leaf (some node)).Blocked := by
  obtain ⟨steps, value⟩ := leaf
  cases hwell with
  | leaf old =>
    have hfirst : (Node.slots [(0, .leaf old)]).Blocked := ⟨0, .leaf old, rfl, .leaf old⟩
    cases steps with
    | nil => exact ⟨0, .leaf old, rfl, .leaf old⟩
    | cons step rest => exact blocked_alterSlots (Node.ascending_singleton _ _) hfirst hkept
  | slots _ ascending _ =>
    cases steps with
    | nil => exact blocked_append ascending h _
    | cons step rest => exact blocked_alterSlots ascending h hkept
  | members _ _ _ =>
    rw [store_members]
    trivial

theorem blocked_store_nil (value : Scalar) {place : Option Node}
    (hwell : ∀ node ∈ place, node.WellFormed) : (store ([], value) place).Blocked := by
  cases place with
  | none => trivial
  | some node =>
    cases hwell node rfl with
    | leaf old => exact ⟨0, .leaf old, rfl, .leaf old⟩
    | @slots items _ ascending _ =>
      refine ⟨nextIndex items, .leaf value, ?_, .leaf value⟩
      rw [append_nextIndex ascending fun _ ↦ .leaf value, Assoc.get?_alterSorted ascending,
        if_pos rfl]
    | members _ _ _ => trivial

/-- Some leaf displaces a member when the leaves come to a place one after another. -/
def Displaces (leaves : List Leaf) : Prop :=
  ∃ earlier leaf later, leaves = earlier ++ leaf :: later ∧
    displacedAt leaf (grow earlier none) ≠ none

theorem wellFormed_grow (leaves : List Leaf) : ∀ node ∈ grow leaves none, node.WellFormed := by
  induction leaves using List.reverseRecOn with
  | nil =>
    intro node hnode
    cases hnode
  | append_singleton init leaf ih =>
    rw [grow_append]
    intro node hnode
    cases hnode
    exact keeps_store leaf _ ih

/-- Once a value has come by itself, a place stays blocked as long as no member is displaced. -/
theorem blocked_grow (before : List Leaf) (value : Scalar) {later : List Leaf}
    (hkept : ¬ Displaces (before ++ ([], value) :: later)) :
    ∃ node, grow (before ++ ([], value) :: later) none = some node ∧ node.Blocked := by
  induction later using List.reverseRecOn with
  | nil =>
    rw [grow_append]
    exact ⟨_, rfl, blocked_store_nil value (wellFormed_grow before)⟩
  | append_singleton init leaf ih =>
    have hsplit : before ++ ([], value) :: (init ++ [leaf]) =
        (before ++ ([], value) :: init) ++ leaf :: [] := by simp
    rw [hsplit] at hkept ⊢
    obtain ⟨node, hnode, hblocked⟩ := ih fun ⟨earlier, l, later, heq, hplace⟩ ↦
      hkept ⟨earlier, l, later ++ [leaf], by rw [heq]; simp, hplace⟩
    have hwell := wellFormed_grow (before ++ ([], value) :: init) node hnode
    refine ⟨_, by rw [grow_append, hnode]; rfl, blocked_store hwell hblocked ?_⟩
    rw [← hnode]
    exact not_not.mp fun hplace ↦ hkept ⟨_, leaf, [], rfl, hplace⟩

end RowFilter.QueryString
