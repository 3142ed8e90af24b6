import Mathlib.Algebra.BigOperators.Group.Multiset.Basic
import Mathlib.Tactic.Abel
import RowFilter.Proofs.QueryString.Parameters
import RowFilter.Proofs.QueryString.WellFormed

/-!
What one more parameter does to the scalars that have been decoded. A store adds one scalar and
keeps all others, with one exception: a value that arrives at members is the name of a member, and a
member that already has this name is displaced with everything in it (`scalars_store`). No node is
without scalars, so a displaced member is always a loss; `scalars_decode_of_next_pair` says what
this means for a query string that is read one pair further.
-/

set_option autoImplicit false

namespace RowFilter

/-! ### Scalars of a value -/

/-- The scalars of a value, each as often as it occurs. -/
def Json.scalars (v : Json) : Multiset Scalar := v.leaves.map Prod.snd

theorem Json.card_scalars (v : Json) : Multiset.card v.scalars = v.leaves.length := by
  rw [Json.scalars, Multiset.coe_card, List.length_map]

theorem coe_flatMap_eq_sum {α β : Type} (f : α → List β) (as : List α) :
    (as.flatMap f : Multiset β) = (as.map fun a ↦ (f a : Multiset β)).sum := by
  induction as with
  | nil => rfl
  | cons a rest ih =>
    rw [List.flatMap_cons, ← Multiset.coe_add, ih, List.map_cons, List.sum_cons]

namespace Json

@[simp] theorem scalars_scalar (s : Scalar) : (Json.scalar s).scalars = {s} := by
  rw [scalars, leaves]
  rfl

theorem map_snd_below (step : QueryString.Step) (ls : List Leaf) :
    (ls.map (Leaf.below step)).map Prod.snd = ls.map Prod.snd := by
  rw [List.map_map]
  rfl

theorem scalars_array (items : List Json) :
    (Json.array items).scalars = (items.map scalars).sum := by
  rw [scalars, leaves_array, List.map_flatMap, coe_flatMap_eq_sum]
  simp only [map_snd_below]
  conv_rhs => rw [← map_snd_indexed 0 items, List.map_map]
  rfl

theorem scalars_object (members : List (String × Json)) :
    (Json.object members).scalars = (members.map fun m ↦ m.2.scalars).sum := by
  rw [scalars, leaves_object, List.map_flatMap, coe_flatMap_eq_sum]
  simp only [map_snd_below]
  rfl

end Json

namespace QueryString

open Assoc (Ascending)

/-! ### Scalars of a node -/

def Node.scalars (node : Node) : Multiset Scalar := node.toJson.scalars

/-- The scalars of all entries of a container. -/
def entryScalars {κ : Type} (entries : List (κ × Node)) : Multiset Scalar :=
  (entries.map fun e ↦ e.2.scalars).sum

/-- The scalars at a place, none where there is no node. -/
def placeScalars (place : Option Node) : Multiset Scalar := place.elim 0 Node.scalars

@[simp] theorem placeScalars_none : placeScalars none = 0 := rfl

@[simp] theorem placeScalars_some (node : Node) : placeScalars (some node) = node.scalars := rfl

@[simp] theorem entryScalars_nil {κ : Type} : entryScalars ([] : List (κ × Node)) = 0 := rfl

@[simp] theorem entryScalars_cons {κ : Type} (e : κ × Node) (rest : List (κ × Node)) :
    entryScalars (e :: rest) = e.2.scalars + entryScalars rest := by
  rw [entryScalars, List.map_cons, List.sum_cons]
  rfl

theorem entryScalars_namedSlots (items : List (Nat × Node)) :
    entryScalars (namedSlots items) = entryScalars items := by
  rw [entryScalars, namedSlots, List.map_map]
  rfl

@[simp] theorem Node.scalars_leaf (value : Scalar) : (Node.leaf value).scalars = {value} := by
  rw [Node.scalars, Node.toJson, Json.scalars_scalar]

@[simp] theorem Node.scalars_slots (items : List (Nat × Node)) :
    (Node.slots items).scalars = entryScalars items := by
  rw [Node.scalars, Node.toJson, slotValues_eq_map, Json.scalars_array, List.map_map]
  rfl

theorem scalars_object_memberValues (items : List (String × Node)) :
    (Json.object (Node.memberValues items)).scalars = entryScalars items := by
  rw [memberValues_eq_map, Json.scalars_object, List.map_map]
  rfl

@[simp] theorem Node.scalars_members (items : List (String × Node)) :
    (Node.members items).scalars = entryScalars items := by
  rw [Node.scalars, Node.toJson, scalars_object_memberValues]

/-- A well-formed node holds at least one scalar. -/
theorem Node.WellFormed.card_scalars_pos {node : Node} (h : node.WellFormed) :
    0 < Multiset.card node.scalars := by
  induction h with
  | leaf value => simp
  | slots ne_nil _ _ ih =>
    obtain ⟨e, rest, rfl⟩ := List.exists_cons_of_ne_nil ne_nil
    rw [Node.scalars_slots, entryScalars_cons, Multiset.card_add]
    exact Nat.add_pos_left (ih e List.mem_cons_self) _
  | members ne_nil _ _ ih =>
    obtain ⟨e, rest, rfl⟩ := List.exists_cons_of_ne_nil ne_nil
    rw [Node.scalars_members, entryScalars_cons, Multiset.card_add]
    exact Nat.add_pos_left (ih e List.mem_cons_self) _

/-! ### One change -/

section Change

variable (change : Option Node → Node)

/-- What stood under a key is exchanged for what the change makes of it. -/
theorem entryScalars_alter (name : String) (items : List (String × Node)) :
    entryScalars (Assoc.alter name change items) + placeScalars (Assoc.get? name items) =
      (change (Assoc.get? name items)).scalars + entryScalars items := by
  induction items with
  | nil => simp [Assoc.alter]
  | cons e rest ih =>
    obtain ⟨k, node⟩ := e
    unfold Assoc.alter Assoc.get?
    split
    · simp only [entryScalars_cons, placeScalars_some]
      abel
    · rw [entryScalars_cons, entryScalars_cons, add_assoc, ih]
      abel

theorem entryScalars_alterSorted (i : Nat) {items : List (Nat × Node)} (h : Ascending items) :
    entryScalars (Assoc.alterSorted i change items) + placeScalars (Assoc.get? i items) =
      (change (Assoc.get? i items)).scalars + entryScalars items := by
  induction items with
  | nil => simp [Assoc.alterSorted]
  | cons e rest ih =>
    obtain ⟨k, node⟩ := e
    obtain ⟨-, hrest⟩ := List.pairwise_cons.mp h
    unfold Assoc.alterSorted
    split
    · rename_i hlt
      rw [Assoc.get?, if_neg (Nat.ne_of_lt hlt), entryScalars_cons, entryScalars_cons, add_assoc,
        ih hrest]
      abel
    · split
      · rename_i heq
        rw [Assoc.get?, if_pos heq, entryScalars_cons, entryScalars_cons, placeScalars_some]
        abel
      · rename_i hnlt hne
        have hlt : i < k := Nat.lt_of_le_of_ne (Nat.le_of_not_lt hnlt) (Ne.symm hne)
        have hnone : Assoc.get? i ((k, node) :: rest) = none := h.get?_cons_eq_none hlt
        rw [hnone, placeScalars_none, add_zero, entryScalars_cons]

/-- The slot that a step leads to, if it is there already. -/
def slotAt? (items : List (Nat × Node)) : Step → Option Node
  | .key name => Assoc.get? name (namedSlots items)
  | .index i => Assoc.get? i items
  | .append => none

/-- The member that a step leads to, if it is there already. -/
def memberAt? (items : List (String × Node)) : Step → Option Node
  | .key name => Assoc.get? name items
  | .index i => Assoc.get? (toString i) items
  | .append => Assoc.get? (toString items.length) items

/-- The child that a step leads to. A leaf counts as the first of a list. -/
def Node.child? (step : Step) : Node → Option Node
  | .leaf old => slotAt? [(0, .leaf old)] step
  | .slots items => slotAt? items step
  | .members items => memberAt? items step

theorem scalars_alterSlots {items : List (Nat × Node)} (h : Ascending items) (step : Step) :
    (Node.alterSlots change items step).scalars + placeScalars (slotAt? items step) =
      (change (slotAt? items step)).scalars + entryScalars items := by
  cases step with
  | key name =>
    rw [Node.alterSlots, Node.scalars_members, slotAt?, entryScalars_alter, entryScalars_namedSlots]
  | index i => rw [Node.alterSlots, Node.scalars_slots, slotAt?, entryScalars_alterSorted _ _ h]
  | append =>
    have hplace := entryScalars_alterSorted change (nextIndex items) h
    rw [get?_nextIndex h] at hplace
    rw [Node.alterSlots, Node.scalars_slots, append_nextIndex h]
    exact hplace

theorem scalars_alterMembers (items : List (String × Node)) (step : Step) :
    (Node.alterMembers change items step).scalars + placeScalars (memberAt? items step) =
      (change (memberAt? items step)).scalars + entryScalars items := by
  cases step <;> rw [Node.alterMembers, Node.scalars_members, memberAt?, entryScalars_alter]

theorem scalars_alterChild {node : Node} (h : node.WellFormed) (step : Step) :
    (node.alterChild change step).scalars + placeScalars (node.child? step) =
      (change (node.child? step)).scalars + node.scalars := by
  cases h with
  | leaf old =>
    have hslots := scalars_alterSlots change (Node.ascending_singleton 0 (.leaf old)) step
    rw [entryScalars_cons, entryScalars_nil, add_zero] at hslots
    exact hslots
  | slots _ ascending _ =>
    rw [Node.scalars_slots]
    exact scalars_alterSlots change ascending step
  | members _ _ _ =>
    rw [Node.scalars_members]
    exact scalars_alterMembers change _ step

end Change

theorem Node.WellFormed.child {node child : Node} (h : node.WellFormed) {step : Step}
    (hchild : node.child? step = some child) : child.WellFormed := by
  have hslot {items : List (Nat × Node)} (hitems : ∀ e ∈ items, e.2.WellFormed)
      (hat : slotAt? items step = some child) : child.WellFormed := by
    cases step with
    | key name =>
      obtain ⟨e, he, heq⟩ := List.mem_map.mp (Assoc.mem_of_get?_eq_some hat)
      cases heq
      exact hitems e he
    | index i => exact hitems _ (Assoc.mem_of_get?_eq_some hat)
    | append => cases hat
  cases h with
  | leaf old => exact hslot (by simpa using WellFormed.leaf old) hchild
  | slots _ _ children => exact hslot children hchild
  | members _ _ children =>
    cases step <;> exact children _ (Assoc.mem_of_get?_eq_some hchild)

/-! ### One store -/

/-- The member that a value takes the place of: at the end of its path stand members, and one of
them has the name that the value spells. -/
def Node.displaced? (value : Scalar) : List Step → Node → Option Node
  | [], .members items => Assoc.get? (memberName value) items
  | [], _ => none
  | step :: rest, node => (node.child? step).bind (Node.displaced? value rest)

/-- What a leaf displaces at the place it is stored at. -/
def displacedAt (leaf : Leaf) (place : Option Node) : Option Node :=
  place.bind (Node.displaced? leaf.2 leaf.1)

theorem Node.scalars_fresh (value : Scalar) (steps : List Step) :
    (Node.fresh value steps).scalars = {value} := by
  induction steps with
  | nil => exact Node.scalars_leaf value
  | cons step rest ih => cases step <;> simp [Node.fresh, ih]

/-- A value at members is stored as the boolean under its name, anywhere else as itself. -/
theorem Node.scalars_add {node : Node} (h : node.WellFormed) (value : Scalar) :
    ∃ s, (s = value ∨ s = .bool true) ∧
      (node.add value).scalars + placeScalars (node.displaced? value []) = s ::ₘ node.scalars := by
  cases h with
  | leaf old =>
    refine ⟨value, .inl rfl, ?_⟩
    simp only [Node.add, Node.displaced?, Node.scalars_slots, entryScalars_cons, entryScalars_nil,
      Node.scalars_leaf, placeScalars_none, add_zero, ← Multiset.singleton_add]
    abel
  | @slots items _ ascending _ =>
    have hplace := entryScalars_alterSorted (fun _ ↦ .leaf value) (nextIndex items) ascending
    rw [get?_nextIndex ascending] at hplace
    refine ⟨value, .inl rfl, ?_⟩
    rw [Node.add, Node.displaced?, Node.scalars_slots,
      append_nextIndex ascending fun _ ↦ .leaf value, Node.scalars_slots,
      ← Multiset.singleton_add, ← Node.scalars_leaf]
    · exact hplace
    · simp
  | @members items _ _ _ =>
    refine ⟨.bool true, .inr rfl, ?_⟩
    rw [Node.add, Node.displaced?, Node.scalars_members, Node.scalars_members, Assoc.put,
      entryScalars_alter, Node.scalars_leaf, Multiset.singleton_add]

/-- If what stood at a place is exchanged for something that has one scalar more and others less, so
is the whole. -/
theorem cons_of_exchange {s : Scalar} {whole whole' place place' lost : Multiset Scalar}
    (hwhole : whole' + place = place' + whole) (hplace : place' + lost = s ::ₘ place) :
    whole' + lost = s ::ₘ whole := by
  refine add_right_cancel (b := place) ?_
  calc whole' + lost + place
      = place' + whole + lost := by rw [add_right_comm, hwhole]
    _ = s ::ₘ place + whole := by rw [add_right_comm, hplace]
    _ = s ::ₘ whole + place := by rw [Multiset.cons_add, Multiset.cons_add, add_comm]

/-- A store adds one scalar and loses those of the member it displaces. -/
theorem scalars_store (leaf : Leaf) {place : Option Node}
    (h : ∀ node ∈ place, node.WellFormed) :
    ∃ s, (s = leaf.2 ∨ s = .bool true) ∧
      (store leaf place).scalars + placeScalars (displacedAt leaf place) =
        s ::ₘ placeScalars place := by
  obtain ⟨steps, value⟩ := leaf
  induction steps generalizing place with
  | nil =>
    cases place with
    | none => exact ⟨value, .inl rfl, by simp [store, displacedAt, Node.fresh]⟩
    | some node => exact Node.scalars_add (h node rfl) value
  | cons step rest ih =>
    cases place with
    | none => exact ⟨value, .inl rfl, by simp [store, displacedAt, Node.scalars_fresh]⟩
    | some node =>
      have hnode := h node rfl
      have hplace : ∀ child ∈ node.child? step, child.WellFormed := fun _ hc ↦ hnode.child hc
      obtain ⟨s, hs, hchild⟩ := ih hplace
      have hchange := scalars_alterChild (store (rest, value)) hnode step
      exact ⟨s, hs, cons_of_exchange hchange hchild⟩

/-! ### One more pair -/

/-- The member that a parameter displaces in a tree. -/
def Tree.displaced? (tree : Tree) (p : Parameter) : Option Node :=
  displacedAt (p.path.steps, p.value) (Assoc.get? p.path.root tree)

theorem Tree.scalars_toJson (tree : Tree) : tree.toJson.scalars = entryScalars tree :=
  scalars_object_memberValues tree

theorem Tree.scalars_insert {tree : Tree} (h : tree.WellFormed) (p : Parameter) :
    ∃ s, (s = p.value ∨ s = .bool true) ∧
      (tree.insert p.path p.value).toJson.scalars + placeScalars (tree.displaced? p) =
        s ::ₘ tree.toJson.scalars := by
  have hplace : ∀ node ∈ Assoc.get? p.path.root tree, node.WellFormed := fun node hnode ↦
    h.children _ (Assoc.mem_of_get?_eq_some hnode)
  obtain ⟨s, hs, hstore⟩ := scalars_store (p.path.steps, p.value) hplace
  have hchange := entryScalars_alter (store (p.path.steps, p.value)) p.path.root tree
  rw [Tree.scalars_toJson, Tree.scalars_toJson]
  exact ⟨s, hs, cons_of_exchange hchange hstore⟩

theorem Node.WellFormed.displaced {node lost : Node} (h : node.WellFormed) {value : Scalar}
    {steps : List Step} (hlost : node.displaced? value steps = some lost) : lost.WellFormed := by
  induction steps generalizing node with
  | nil =>
    cases h with
    | leaf _ => cases hlost
    | slots _ _ _ => cases hlost
    | members _ _ children => exact children _ (Assoc.mem_of_get?_eq_some hlost)
  | cons step rest ih =>
    obtain ⟨child, hchild, hlost⟩ := Option.bind_eq_some_iff.mp hlost
    exact ih (h.child hchild) hlost

/-- Nothing is lost and one scalar gained exactly when no member is displaced. -/
theorem Tree.scalars_insert_iff {tree : Tree} (h : tree.WellFormed) (p : Parameter) :
    (tree.toJson.scalars ≤ (tree.insert p.path p.value).toJson.scalars ∧
        Multiset.card (tree.insert p.path p.value).toJson.scalars =
          Multiset.card tree.toJson.scalars + 1) ↔ tree.displaced? p = none := by
  obtain ⟨s, -, hinsert⟩ := Tree.scalars_insert h p
  have hcard := congrArg Multiset.card hinsert
  rw [Multiset.card_add, Multiset.card_cons] at hcard
  cases hplace : tree.displaced? p with
  | none =>
    rw [hplace, placeScalars_none, add_zero] at hinsert
    rw [hinsert, Multiset.card_cons]
    exact iff_of_true ⟨Multiset.le_cons_self _ s, rfl⟩ rfl
  | some node =>
    obtain ⟨root, hroot, hlost⟩ := Option.bind_eq_some_iff.mp hplace
    have hwell : root.WellFormed := h.children _ (Assoc.mem_of_get?_eq_some hroot)
    have hpos := (hwell.displaced hlost).card_scalars_pos
    rw [hplace, placeScalars_some] at hcard
    refine iff_of_false (fun hkept ↦ ?_) (Option.some_ne_none node)
    have := hkept.2
    omega

/-- The tree of a query string that is read one pair further. -/
theorem ofParameters_next_pair {before after : String} {pair : String × String}
    (hpairs : pairs after = pairs before ++ [pair]) (hlength : (pairs after).length ≤ 1000) :
    Tree.ofParameters (parameters after) =
      (Parameter.ofPair? pair).elim (Tree.ofParameters (parameters before))
        fun p ↦ (Tree.ofParameters (parameters before)).insert p.path p.value := by
  have hbefore : (pairs before).length ≤ maxParameters := by
    rw [hpairs, List.length_append] at hlength
    exact (Nat.le_add_right _ _).trans hlength
  rw [parameters_eq hlength, parameters_eq hbefore, hpairs, List.filterMap_append]
  cases hpair : Parameter.ofPair? pair with
  | none => simp [hpair]
  | some p => simp [hpair, Tree.ofParameters, List.foldl_append]

/-- Reading a query string one pair further. A pair that is passed over changes nothing. One that is
kept adds one scalar, its value or the boolean that stands for it at members, and loses exactly the
scalars of the member that it displaces; so it keeps all scalars and adds one exactly when it
displaces none. -/
theorem scalars_decode_of_next_pair {before after : String} {pair : String × String}
    (hpairs : pairs after = pairs before ++ [pair]) (hlength : (pairs after).length ≤ 1000) :
    (Parameter.ofPair? pair = none → decode after = decode before) ∧
      ∀ p, Parameter.ofPair? pair = some p →
        let displaced := (Tree.ofParameters (parameters before)).displaced? p
        (∃ s, (s = p.value ∨ s = .bool true) ∧
          (decode after).scalars + placeScalars displaced = s ::ₘ (decode before).scalars) ∧
        ((decode before).scalars ≤ (decode after).scalars ∧
            Multiset.card (decode after).scalars = Multiset.card (decode before).scalars + 1 ↔
          displaced = none) := by
  have htree := ofParameters_next_pair hpairs hlength
  have hwell := Tree.wellFormed_ofParameters (parameters before)
  refine ⟨fun hnone ↦ ?_, fun p hp ↦ ?_⟩
  · rw [hnone, Option.elim_none] at htree
    rw [decode, htree, decode]
  · rw [hp, Option.elim_some] at htree
    rw [decode, decode, htree]
    exact ⟨Tree.scalars_insert hwell p, Tree.scalars_insert_iff hwell p⟩

theorem scalars_decode_of_next_pair_at_members :
    pairs "a[]=x&a[c]=true&a=d" = pairs "a[]=x&a[c]=true" ++ [("a", "d")] ∧
      (pairs "a[]=x&a[c]=true&a=d").length ≤ 1000 ∧
      (decode "a[]=x&a[c]=true").scalars ≤ (decode "a[]=x&a[c]=true&a=d").scalars ∧
      Multiset.card (decode "a[]=x&a[c]=true&a=d").scalars =
        Multiset.card (decode "a[]=x&a[c]=true").scalars + 1 := by
  have hpairs : pairs "a[]=x&a[c]=true&a=d" = pairs "a[]=x&a[c]=true" ++ [("a", "d")] := by decide
  have hlength : (pairs "a[]=x&a[c]=true&a=d").length ≤ 1000 := by decide
  have hparameters : parameters "a[]=x&a[c]=true" =
      [⟨⟨"a", [.append]⟩, .string "x"⟩, ⟨⟨"a", [.key "c"]⟩, .bool true⟩] := by decide
  have hstep := (scalars_decode_of_next_pair hpairs hlength).2 ⟨⟨"a", []⟩, .string "d"⟩ (by decide)
  rw [hparameters] at hstep
  exact ⟨hpairs, hlength, hstep.2.mpr rfl⟩

/-- A value that names a member takes its place, and what the member held is lost. -/
theorem not_forall_scalars_le_decode :
    ¬ ∀ (before after : String) (pair : String × String),
      pairs after = pairs before ++ [pair] → (pairs after).length ≤ 1000 →
        (decode before).scalars ≤ (decode after).scalars ∧
          (Parameter.ofPair? pair ≠ none →
            Multiset.card (decode after).scalars = Multiset.card (decode before).scalars + 1) := by
  intro h
  have hbefore : parameters "a[b]=x" = [⟨⟨"a", [.key "b"]⟩, .string "x"⟩] := by decide
  have hafter : parameters "a[b]=x&a=b" =
      [⟨⟨"a", [.key "b"]⟩, .string "x"⟩, ⟨⟨"a", []⟩, .string "b"⟩] := by decide
  have hkept := (h "a[b]=x" "a[b]=x&a=b" ("a", "b") (by decide) (by decide)).1
  rw [decode, decode, hbefore, hafter] at hkept
  have hle : ({.string "x"} : Multiset Scalar) ≤ {.bool true} := hkept
  exact absurd (Multiset.singleton_le.mp hle) (by simp)

end QueryString

end RowFilter
