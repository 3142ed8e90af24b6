import Mathlib.Data.List.Induction
import RowFilter.Proofs.Filter.Shape
import RowFilter.Proofs.QueryString.Parameters
import RowFilter.Proofs.QueryString.WellFormed

/-!
Parameters of which none stands in the way of another may come in any order. A tree then holds
nothing but its leaves: what a node is can be told from the leaves below it, a leaf, slots if every
first step is an index, and members otherwise (`Represents`). A store keeps this, whether a node is
changed in place or slots turn into members (`Represents.store`), and leaves that are the same up to
their order are represented by values that are the same up to the order of members
(`Represents.same`). So the order of the parameters shows in the order of members alone
(`sameUpToOrder_decode`).
-/

set_option autoImplicit false

namespace RowFilter

/-- Equal values but for the order in which objects list their members. -/
inductive Json.SameUpToOrder : Json → Json → Prop
  | scalar (s : Scalar) : SameUpToOrder (.scalar s) (.scalar s)
  | array {xs ys : List Json} (items : List.Forall₂ SameUpToOrder xs ys) :
      SameUpToOrder (.array xs) (.array ys)
  | object {ms ns ns' : List (String × Json)} (values : List.Forall₂ (SameName SameUpToOrder) ms ns)
      (perm : ns.Perm ns') : SameUpToOrder (.object ms) (.object ns')

/-! ### Leaves that do not meet -/

namespace Leaf

/-- The texts of the steps to a leaf. -/
def texts (leaf : Leaf) : List String := leaf.1.map QueryString.Step.text

/-- Neither leaf stands on the way to the other. -/
def Apart (first second : Leaf) : Prop :=
  ¬ first.texts <+: second.texts ∧ ¬ second.texts <+: first.texts

instance (first second : Leaf) : Decidable (Apart first second) :=
  inferInstanceAs (Decidable (_ ∧ _))

/-- A leaf as it is seen from below the name that its first step spells. -/
def within? (name : String) : Leaf → Option Leaf
  | ([], _) => none
  | (step :: rest, value) => if step.text = name then some (rest, value) else none

/-- The leaves below a name. -/
def within (name : String) (leaves : List Leaf) : List Leaf := leaves.filterMap (within? name)

theorem mem_within {name : String} {leaves : List Leaf} {leaf : Leaf} :
    leaf ∈ within name leaves ↔ ∃ step, step.text = name ∧ (step :: leaf.1, leaf.2) ∈ leaves := by
  rw [within, List.mem_filterMap]
  constructor
  · rintro ⟨⟨steps, value⟩, hmem, heq⟩
    cases steps with
    | nil => cases heq
    | cons step rest =>
      obtain ⟨hname, heq⟩ := Option.ite_none_right_eq_some.mp heq
      cases heq
      exact ⟨step, hname, hmem⟩
  · rintro ⟨step, rfl, hmem⟩
    exact ⟨_, hmem, if_pos rfl⟩

theorem apart_cons {first second : QueryString.Step} (h : first.text = second.text)
    {m n : Leaf} (hapart : Apart (first :: m.1, m.2) (second :: n.1, n.2)) : Apart m n := by
  have hmn := hapart.1
  have hnm := hapart.2
  simp only [texts, List.map_cons, List.cons_prefix_cons, h, true_and] at hmn hnm
  exact ⟨hmn, hnm⟩

theorem Apart.symm {first second : Leaf} (h : Apart first second) : Apart second first := ⟨h.2, h.1⟩

theorem not_apart_nil (value : Scalar) (leaf : Leaf) : ¬ Apart ([], value) leaf :=
  fun h ↦ h.1 (List.nil_prefix)

end Leaf

namespace QueryString

open Assoc (Ascending)

/-! ### Slots by the names of their indices -/

theorem get?_namedSlots_toString (i : Nat) (items : List (Nat × Node)) :
    Assoc.get? (toString i) (namedSlots items) = Assoc.get? i items := by
  induction items with
  | nil => rfl
  | cons e rest ih =>
    by_cases h : e.1 = i
    · simp [namedSlots, Assoc.get?, h]
    · have hname : toString e.1 ≠ toString i := Decimal.toString_injective.ne h
      rw [namedSlots, List.map_cons, Assoc.get?, Assoc.get?, if_neg h, if_neg hname]
      exact ih

theorem get?_namedSlots_eq_none {name : String} (h : ∀ i : Nat, name ≠ toString i)
    (items : List (Nat × Node)) : Assoc.get? name (namedSlots items) = none := by
  rw [Assoc.get?_eq_none_iff]
  intro e he
  obtain ⟨slot, -, rfl⟩ := List.mem_map.mp he
  exact (h slot.1).symm

theorem get?_namedSlots_alterSorted {items : List (Nat × Node)} (h : Ascending items) (i : Nat)
    (f : Option Node → Node) (name : String) :
    Assoc.get? name (namedSlots (Assoc.alterSorted i f items)) =
      if name = toString i then some (f (Assoc.get? (toString i) (namedSlots items)))
      else Assoc.get? name (namedSlots items) := by
  by_cases hname : ∃ j : Nat, name = toString j
  · obtain ⟨j, rfl⟩ := hname
    simp only [get?_namedSlots_toString, Assoc.get?_alterSorted h,
      Decimal.toString_injective.eq_iff]
  · have hnone : ∀ j : Nat, name ≠ toString j := fun j hj ↦ hname ⟨j, hj⟩
    rw [if_neg (hnone i), get?_namedSlots_eq_none hnone, get?_namedSlots_eq_none hnone]

/-! ### Nodes and the leaves that they hold -/

/-- What stands at a place that holds the leaves and nothing else: nothing without leaves, and
otherwise the one leaf, or a container of the kind that the first steps call for, with the leaves
below each name at the entry of the name. -/
inductive Represents : List Leaf → Option Node → Prop
  | none : Represents [] none
  | leaf (value : Scalar) : Represents [([], value)] (some (.leaf value))
  | slots {leaves : List Leaf} {items : List (Nat × Node)} (ne_nil : leaves ≠ [])
      (ascending : Ascending items)
      (indices : ∀ leaf ∈ leaves, ∃ i rest, leaf.1 = .index i :: rest)
      (children : ∀ name,
        Represents (Leaf.within name leaves) (Assoc.get? name (namedSlots items))) :
      Represents leaves (some (.slots items))
  | members {leaves : List Leaf} {items : List (String × Node)}
      (nodup : (items.map Prod.fst).Nodup) (deep : ∀ leaf ∈ leaves, leaf.1 ≠ [])
      (key : ∃ leaf ∈ leaves, ∃ name rest, leaf.1 = .key name :: rest)
      (children : ∀ name, Represents (Leaf.within name leaves) (Assoc.get? name items)) :
      Represents leaves (some (.members items))

/-! ### One store -/

section Store

variable {leaves : List Leaf} {rest : List Step} {value : Scalar}

theorem within_append_cons (step : Step) (name : String) :
    Leaf.within name (leaves ++ [(step :: rest, value)]) =
      Leaf.within name leaves ++ if step.text = name then [(rest, value)] else [] := by
  rw [Leaf.within, List.filterMap_append]
  by_cases h : step.text = name <;> simp [Leaf.within, Leaf.within?, h]

/-- If an entry has changed as its leaves have, the entries hold the leaves as before. -/
theorem represents_children (step : Step) {entries entries' : List (String × Node)}
    (hentries : ∀ name, Assoc.get? name entries' =
      if name = step.text then some (store (rest, value) (Assoc.get? step.text entries))
      else Assoc.get? name entries)
    (hstore : Represents (Leaf.within step.text leaves ++ [(rest, value)])
      (some (store (rest, value) (Assoc.get? step.text entries))))
    (h : ∀ name, Represents (Leaf.within name leaves) (Assoc.get? name entries)) (name : String) :
    Represents (Leaf.within name (leaves ++ [(step :: rest, value)]))
      (Assoc.get? name entries') := by
  rw [within_append_cons, hentries]
  by_cases hname : name = step.text
  · rw [if_pos hname, if_pos hname.symm, hname]
    exact hstore
  · rw [if_neg hname, if_neg (Ne.symm hname), List.append_nil]
    exact h name

theorem represents_alter (step : Step) (items : List (String × Node))
    (hnodup : (items.map Prod.fst).Nodup)
    (hdeep : ∀ leaf ∈ leaves, leaf.1 ≠ [])
    (hkey : ∃ leaf ∈ leaves ++ [(step :: rest, value)], ∃ name below, leaf.1 = .key name :: below)
    (hstore : Represents (Leaf.within step.text leaves ++ [(rest, value)])
      (some (store (rest, value) (Assoc.get? step.text items))))
    (h : ∀ name, Represents (Leaf.within name leaves) (Assoc.get? name items)) :
    Represents (leaves ++ [(step :: rest, value)])
      (some (.members (Assoc.alter step.text (store (rest, value)) items))) := by
  refine .members (Assoc.nodup_keys_alter hnodup _) ?_ hkey
    (represents_children step (fun name ↦ Assoc.get?_alter step.text name _ items) hstore h)
  intro leaf hleaf
  rcases List.mem_append.mp hleaf with hleaf | hleaf
  · exact hdeep leaf hleaf
  · rw [List.mem_singleton.mp hleaf]
    exact List.cons_ne_nil _ _

theorem represents_alterSorted (i : Nat) (items : List (Nat × Node))
    (hascending : Ascending items)
    (hindices : ∀ leaf ∈ leaves, ∃ i rest, leaf.1 = .index i :: rest)
    (hstore : Represents (Leaf.within (toString i) leaves ++ [(rest, value)])
      (some (store (rest, value) (Assoc.get? (toString i) (namedSlots items)))))
    (h : ∀ name, Represents (Leaf.within name leaves) (Assoc.get? name (namedSlots items))) :
    Represents (leaves ++ [(.index i :: rest, value)])
      (some (.slots (Assoc.alterSorted i (store (rest, value)) items))) := by
  refine .slots (List.append_ne_nil_of_right_ne_nil _ (List.cons_ne_nil _ _))
    (hascending.alterSorted _) ?_
    (represents_children (.index i) (get?_namedSlots_alterSorted hascending i _) hstore h)
  intro leaf hleaf
  rcases List.mem_append.mp hleaf with hleaf | hleaf
  · exact hindices leaf hleaf
  · rw [List.mem_singleton.mp hleaf]
    exact ⟨i, rest, rfl⟩

/-- A leaf that starts with a step is stored at any node that is no value, if what follows the step
is stored at the child. -/
theorem represents_step {place : Option Node} (h : Represents leaves place) {step : Step}
    (hstep : step ≠ .append) (hdeep : ∀ leaf ∈ leaves, leaf.1 ≠ [])
    (hchild : ∀ child, Represents (Leaf.within step.text leaves) child →
      Represents (Leaf.within step.text leaves ++ [(rest, value)])
        (some (store (rest, value) child))) :
    Represents (leaves ++ [(step :: rest, value)])
      (some (store (step :: rest, value) place)) := by
  cases h with
  | none =>
    cases step with
    | key name =>
      exact represents_alter (.key name) [] List.nodup_nil hdeep
        ⟨_, List.mem_singleton_self _, name, rest, rfl⟩ (hchild _ .none) fun _ ↦ .none
    | index i =>
      exact represents_alterSorted i [] List.Pairwise.nil (List.forall_mem_nil _) (hchild _ .none)
        fun _ ↦ .none
    | append => exact absurd rfl hstep
  | leaf old => exact absurd rfl (hdeep _ (List.mem_singleton_self _))
  | slots _ ascending indices children =>
    cases step with
    | key name =>
      exact represents_alter (.key name) _ (nodup_namedSlots ascending) hdeep
        ⟨_, List.mem_append_right _ (List.mem_singleton_self _), name, rest, rfl⟩
        (hchild _ (children name)) children
    | index i =>
      exact represents_alterSorted i _ ascending indices (hchild _ (children _)) children
    | append => exact absurd rfl hstep
  | members nodup _ key children =>
    have hkey : ∃ leaf ∈ leaves ++ [(step :: rest, value)],
        ∃ name below, leaf.1 = .key name :: below := by
      obtain ⟨leaf, hleaf, hfirst⟩ := key
      exact ⟨leaf, List.mem_append_left _ hleaf, hfirst⟩
    have halter := represents_alter step _ nodup hdeep hkey (hchild _ (children _)) children
    cases step with
    | key name => exact halter
    | index i => exact halter
    | append => exact absurd rfl hstep

end Store

/-- A leaf that is apart from all others is stored beside them. -/
theorem Represents.store {leaves : List Leaf} {place : Option Node} (h : Represents leaves place)
    {leaf : Leaf} (hsteps : .append ∉ leaf.1) (hapart : ∀ l ∈ leaves, l.Apart leaf) :
    Represents (leaves ++ [leaf]) (some (QueryString.store leaf place)) := by
  obtain ⟨steps, value⟩ := leaf
  induction steps generalizing leaves place with
  | nil =>
    have hnone : leaves = [] := by
      refine List.eq_nil_iff_forall_not_mem.mpr fun l hl ↦ ?_
      exact (hapart l hl).2 List.nil_prefix
    subst hnone
    cases h with
    | none => exact .leaf value
    | slots ne_nil _ _ _ => exact absurd rfl ne_nil
    | members _ _ key _ =>
      obtain ⟨_, hmem, -⟩ := key
      cases hmem
  | cons step rest ih =>
    obtain ⟨hstep, hrest⟩ := not_or.mp (mt List.mem_cons.mpr hsteps)
    have hdeep : ∀ leaf ∈ leaves, leaf.1 ≠ [] := by
      rintro ⟨_, old⟩ hleaf rfl
      exact Leaf.not_apart_nil old _ (hapart _ hleaf)
    refine represents_step h (Ne.symm hstep) hdeep fun child hchild ↦ ih hchild hrest fun l hl ↦ ?_
    obtain ⟨first, hfirst, hmem⟩ := Leaf.mem_within.mp hl
    exact Leaf.apart_cons hfirst (hapart _ hmem)

/-- Leaves of which none stands in the way of another grow into what represents them. -/
theorem represents_grow {leaves : List Leaf} (hsteps : ∀ leaf ∈ leaves, .append ∉ leaf.1)
    (hapart : leaves.Pairwise Leaf.Apart) : Represents leaves (grow leaves none) := by
  induction leaves using List.reverseRecOn with
  | nil => exact .none
  | append_singleton init leaf ih =>
    obtain ⟨hinit, -, hlast⟩ := List.pairwise_append.mp hapart
    rw [grow_append]
    refine (ih (fun l hl ↦ hsteps l (List.mem_append_left _ hl)) hinit).store ?_ fun l hl ↦ ?_
    · exact hsteps leaf (List.mem_append_right _ (List.mem_singleton_self _))
    · exact hlast l hl leaf (List.mem_singleton_self _)

/-! ### Values of the same leaves -/

/-- Both places are empty, or their values are the same up to the order of members. -/
abbrev SamePlace (first second : Option Node) : Prop :=
  Option.Rel (fun node other ↦ node.toJson.SameUpToOrder other.toJson) first second

theorem SamePlace.exists_eq_some {node : Node} {place : Option Node}
    (h : SamePlace (some node) place) :
    ∃ other, place = some other ∧ node.toJson.SameUpToOrder other.toJson := by
  cases h with
  | some h => exact ⟨_, rfl, h⟩

theorem SamePlace.eq_none_iff {first second : Option Node} (h : SamePlace first second) :
    first = none ↔ second = none := by
  cases h with
  | some _ => exact iff_of_false (Option.some_ne_none _) (Option.some_ne_none _)
  | none => exact Iff.rfl

/-- Entries where each place is empty exactly when it is among no entries. -/
theorem eq_nil_of_samePlace {κ : Type} [DecidableEq κ] {entries : List (κ × Node)}
    (h : ∀ key, SamePlace none (Assoc.get? key entries)) : entries = [] := by
  refine List.eq_nil_iff_forall_not_mem.mpr fun e he ↦ ?_
  exact Assoc.get?_eq_none_iff.mp ((h e.1).eq_none_iff.mp rfl) e he rfl

theorem forall₂_slotValues {items items' : List (Nat × Node)} (h : Ascending items)
    (h' : Ascending items') (hsame : ∀ i, SamePlace (Assoc.get? i items) (Assoc.get? i items')) :
    List.Forall₂ Json.SameUpToOrder (Node.slotValues items) (Node.slotValues items') := by
  induction items generalizing items' with
  | nil =>
    rw [eq_nil_of_samePlace hsame]
    exact .nil
  | cons e rest ih =>
    obtain ⟨i, node⟩ := e
    have hfirst := hsame i
    rw [Assoc.get?, if_pos rfl] at hfirst
    obtain ⟨other, hother, hvalue⟩ := hfirst.exists_eq_some
    cases items' with
    | nil => cases hother
    | cons e' rest' =>
      obtain ⟨j, node'⟩ := e'
      have hle : j ≤ i := by
        refine Nat.le_of_not_lt fun hlt ↦ ?_
        cases hother.symm.trans (h'.get?_cons_eq_none hlt)
      have hge : i ≤ j := by
        refine Nat.le_of_not_lt fun hlt ↦ ?_
        have hnone := (hsame j).eq_none_iff.mp (h.get?_cons_eq_none hlt)
        rw [Assoc.get?, if_pos rfl] at hnone
        cases hnone
      obtain rfl := Nat.le_antisymm hge hle
      obtain ⟨hbehind, hrest⟩ := List.pairwise_cons.mp h
      obtain ⟨hbehind', hrest'⟩ := List.pairwise_cons.mp h'
      rw [Assoc.get?, if_pos rfl] at hother
      cases hother
      refine .cons hvalue (ih hrest hrest' fun k ↦ ?_)
      by_cases hk : i = k
      · subst hk
        rw [Assoc.get?_eq_none_iff.mpr fun e he ↦ Nat.ne_of_gt (hbehind e he),
          Assoc.get?_eq_none_iff.mpr fun e he ↦ Nat.ne_of_gt (hbehind' e he)]
        exact .none
      · have hboth := hsame k
        rw [Assoc.get?, Assoc.get?, if_neg hk, if_neg hk] at hboth
        exact hboth

theorem exists_forall₂_memberValues {items items' : List (String × Node)}
    (h : (items.map Prod.fst).Nodup) (h' : (items'.map Prod.fst).Nodup)
    (hsame : ∀ name, SamePlace (Assoc.get? name items) (Assoc.get? name items')) :
    ∃ ms, List.Forall₂ (SameName Json.SameUpToOrder) (Node.memberValues items) ms ∧
      ms.Perm (Node.memberValues items') := by
  induction items generalizing items' with
  | nil =>
    rw [eq_nil_of_samePlace hsame]
    exact ⟨[], .nil, .nil⟩
  | cons e rest ih =>
    obtain ⟨name, node⟩ := e
    obtain ⟨hname, hrest⟩ := List.nodup_cons.mp h
    have hfirst := hsame name
    rw [Assoc.get?, if_pos rfl] at hfirst
    obtain ⟨other, hother, hvalue⟩ := hfirst.exists_eq_some
    obtain ⟨before, behind, rfl⟩ := List.append_of_mem (Assoc.mem_of_get?_eq_some hother)
    have hperm : (before ++ (name, other) :: behind).Perm ((name, other) :: (before ++ behind)) :=
      List.perm_middle
    have hnodup := (hperm.map Prod.fst).nodup_iff.mp h'
    obtain ⟨hname', hothers⟩ := List.nodup_cons.mp hnodup
    have hothersSame : ∀ key,
        SamePlace (Assoc.get? key rest) (Assoc.get? key (before ++ behind)) := by
      intro key
      by_cases hkey : name = key
      · subst hkey
        rw [Assoc.get?_eq_none_of_notMem hname, Assoc.get?_eq_none_of_notMem hname']
        exact .none
      · have hboth := hsame key
        rw [Assoc.get?_eq_of_perm h' hperm, Assoc.get?, Assoc.get?, if_neg hkey, if_neg hkey]
          at hboth
        exact hboth
    obtain ⟨ms, hvalues, hms⟩ := ih hrest hothers hothersSame
    refine ⟨(name, other.toJson) :: ms, .cons (.intro hvalue) hvalues, ?_⟩
    rw [memberValues_eq_map] at hms ⊢
    exact (hms.cons _).trans (hperm.map fun e : String × Node ↦ (e.1, e.2.toJson)).symm

/-- Places that hold the same leaves in whatever order hold the same value up to the order of
members. -/
theorem Represents.same {leaves leaves' : List Leaf} {place place' : Option Node}
    (h : Represents leaves place) (h' : Represents leaves' place') (hperm : leaves.Perm leaves') :
    SamePlace place place' := by
  induction h generalizing leaves' place' with
  | none =>
    obtain rfl := hperm.nil_eq
    cases h' with
    | none => exact .none
    | slots ne_nil _ _ _ => exact absurd rfl ne_nil
    | members _ _ key _ =>
      obtain ⟨_, hmem, -⟩ := key
      cases hmem
  | leaf value =>
    obtain rfl := List.singleton_perm.mp hperm
    cases h' with
    | leaf _ => exact .some (.scalar value)
    | slots _ _ indices _ =>
      obtain ⟨_, _, hsteps⟩ := indices _ (List.mem_singleton_self _)
      cases hsteps
    | members _ deep _ _ => exact absurd rfl (deep _ (List.mem_singleton_self _))
  | @slots leaves items ne_nil ascending indices children ih =>
    cases h' with
    | none => exact absurd hperm.eq_nil ne_nil
    | leaf value =>
      obtain ⟨_, _, hsteps⟩ := indices _ (hperm.mem_iff.mpr (List.mem_singleton_self _))
      cases hsteps
    | @slots _ items' _ ascending' _ children' =>
      refine .some (.array (forall₂_slotValues ascending ascending' fun i ↦ ?_))
      have hsame := ih (toString i) (children' (toString i)) (hperm.filterMap _)
      rwa [get?_namedSlots_toString, get?_namedSlots_toString] at hsame
    | members _ _ key _ =>
      obtain ⟨leaf, hleaf, _, _, hname⟩ := key
      obtain ⟨_, _, hindex⟩ := indices leaf (hperm.mem_iff.mpr hleaf)
      cases hname.symm.trans hindex
  | @members leaves items nodup deep key children ih =>
    obtain ⟨leaf, hleaf, _, _, hname⟩ := key
    cases h' with
    | none => cases hperm.mem_iff.mp hleaf
    | leaf value => exact absurd rfl (deep _ (hperm.mem_iff.mpr (List.mem_singleton_self _)))
    | slots _ _ indices _ =>
      obtain ⟨_, _, hindex⟩ := indices leaf (hperm.mem_iff.mp hleaf)
      cases hname.symm.trans hindex
    | members nodup' _ _ children' =>
      obtain ⟨ms, hvalues, hms⟩ := exists_forall₂_memberValues nodup nodup' fun name ↦
        ih name (children' name) (hperm.filterMap _)
      exact .some (.object hvalues hms)

/-! ### Query strings -/

/-- A parameter as a leaf of the whole document. -/
def Parameter.leaf (p : Parameter) : Leaf := (.key p.path.root :: p.path.steps, p.value)

/-- No parameter stands on the way to another, and none appends. -/
structure ConflictFree (ps : List Parameter) : Prop where
  steps : ∀ p ∈ ps, .append ∉ p.path.steps
  apart : ps.Pairwise fun p q ↦ p.leaf.Apart q.leaf

theorem ConflictFree.perm {ps ps' : List Parameter} (h : ConflictFree ps) (hperm : ps.Perm ps') :
    ConflictFree ps' where
  steps p hp := h.steps p (hperm.mem_iff.mpr hp)
  apart := (hperm.pairwise_iff fun hapart ↦ hapart.symm).mp h.apart

theorem grow_map_leaf (ps : List Parameter) :
    grow (ps.map Parameter.leaf) none = Shelf.members.place? (Tree.ofParameters ps) := by
  have h := Shelf.members.grow_place? (ps.map fun p ↦ (p.path.root, (p.path.steps, p.value)))
  rw [List.map_map, List.foldl_map] at h
  exact h

theorem ConflictFree.represents {ps : List Parameter} (h : ConflictFree ps) :
    Represents (ps.map Parameter.leaf) (Shelf.members.place? (Tree.ofParameters ps)) := by
  rw [← grow_map_leaf]
  refine represents_grow (List.forall_mem_map.mpr fun p hp hmem ↦ ?_)
    (List.pairwise_map.mpr h.apart)
  rcases List.mem_cons.mp hmem with hmem | hmem
  · cases hmem
  · exact h.steps p hp hmem

theorem sameUpToOrder_of_samePlace {tree tree' : Tree}
    (h : SamePlace (Shelf.members.place? tree) (Shelf.members.place? tree')) :
    tree.toJson.SameUpToOrder tree'.toJson := by
  cases tree with
  | nil =>
    cases tree' with
    | nil => exact .object .nil .nil
    | cons e' rest' => cases h
  | cons e rest =>
    cases tree' with
    | nil => cases h
    | cons e' rest' =>
      cases h with
      | some hvalue => exact hvalue

/-- Two query strings with the same pairs in whatever order are decoded to values that are the same
up to the order of members, if no parameter stands on the way to another and none appends. -/
theorem sameUpToOrder_decode {query query' : String} (hlength : (pairs query).length ≤ 1000)
    (hperm : (pairs query).Perm (pairs query')) (h : ConflictFree (parameters query)) :
    (decode query).SameUpToOrder (decode query') := by
  have hparameters : (parameters query).Perm (parameters query') := by
    rw [parameters_eq hlength, parameters_eq (hperm.length_eq ▸ hlength)]
    exact hperm.filterMap _
  exact sameUpToOrder_of_samePlace
    (h.represents.same (h.perm hparameters).represents (hparameters.map Parameter.leaf))

theorem sameUpToOrder_decode_mixed :
    (pairs "a[2][x]=1&a[0]=2&a[b]=3").length ≤ 1000 ∧
      (pairs "a[2][x]=1&a[0]=2&a[b]=3").Perm (pairs "a[b]=3&a[2][x]=1&a[0]=2") ∧
      ConflictFree (parameters "a[2][x]=1&a[0]=2&a[b]=3") ∧
      (decode "a[2][x]=1&a[0]=2&a[b]=3").SameUpToOrder (decode "a[b]=3&a[2][x]=1&a[0]=2") := by
  have hlength : (pairs "a[2][x]=1&a[0]=2&a[b]=3").length ≤ 1000 := by decide
  have hperm : (pairs "a[2][x]=1&a[0]=2&a[b]=3").Perm (pairs "a[b]=3&a[2][x]=1&a[0]=2") := by
    decide
  have hparameters : parameters "a[2][x]=1&a[0]=2&a[b]=3" =
      [⟨⟨"a", [.index 2, .key "x"]⟩, .int 1⟩, ⟨⟨"a", [.index 0]⟩, .int 2⟩,
        ⟨⟨"a", [.key "b"]⟩, .int 3⟩] := by decide
  have hfree : ConflictFree (parameters "a[2][x]=1&a[0]=2&a[b]=3") := by
    rw [hparameters]
    exact ⟨by decide, by decide⟩
  exact ⟨hlength, hperm, hfree, sameUpToOrder_decode hlength hperm hfree⟩

end QueryString

end RowFilter
