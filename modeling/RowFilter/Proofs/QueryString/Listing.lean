import RowFilter.Proofs.QueryString.Growth
import RowFilter.Proofs.QueryString.Spelling

/-!
Decoding undoes listing. A query string may list the leaves of an object in document order, each
under its root name with its steps in brackets; however its names and values are spelled, it is
decoded to the object, with every member in its place.
-/

set_option autoImplicit false

namespace RowFilter.QueryString

/-- An object that its leaves tell in full: plain values under distinct root names that end at the
first bracket, no leaf deeper than segments are read, and no more leaves than pairs are read. -/
structure Listable (members : List (String × Json)) : Prop where
  nodup : (members.map Prod.fst).Nodup
  roots : ∀ m ∈ members, m.1 ≠ "" ∧ '[' ∉ m.1.toList
  values : ∀ m ∈ members, m.2.Plain
  depth : ∀ m ∈ members, ∀ leaf ∈ m.2.leaves, leaf.1.length ≤ 5
  count : (leafParameters members).length ≤ 1000

/-- A query string lists the leaves of an object in document order. -/
def Lists (query : String) (members : List (String × Json)) : Prop :=
  SpellsPairs query ((leafParameters members).map Parameter.pair)

variable {members : List (String × Json)}

theorem Listable.ofPair?_pair (h : Listable members) :
    ∀ p ∈ leafParameters members, Parameter.ofPair? p.pair = some p := by
  intro p hp
  obtain ⟨m, hm, hmem⟩ := List.mem_flatMap.mp hp
  obtain ⟨leaf, hleaf, rfl⟩ := List.mem_map.mp hmem
  obtain ⟨hsteps, hvalue⟩ := Json.plain_of_mem_leaves (h.values m hm) leaf hleaf
  exact Parameter.ofPair?_pair
    ⟨(h.roots m hm).1, (h.roots m hm).2, h.depth m hm leaf hleaf, hsteps⟩ hvalue

/-- The parameters that are read are the leaves. -/
theorem parameters_of_lists (h : Listable members) {query : String} (hquery : Lists query members) :
    parameters query = leafParameters members := by
  have hpairs := map_pairOf_pieces hquery
  have hall : (pieces query).take maxParameters = pieces query := by
    refine List.take_of_length_le ?_
    have hlength := congrArg List.length hpairs
    rw [List.length_map, List.length_map] at hlength
    exact hlength ▸ h.count
  rw [parameters, hall, hpairs, List.filterMap_map]
  exact (List.filterMap_congr h.ofPair?_pair).trans List.filterMap_some

/-- Some query string lists the leaves of a listable object, and each one that does is decoded to
the object. -/
theorem decode_of_lists (h : Listable members) :
    (∃ query, Lists query members) ∧
      ∀ query, Lists query members → decode query = .object members := by
  refine ⟨exists_spellsPairs _, fun query hquery ↦ ?_⟩
  rw [decode, parameters_of_lists h hquery]
  exact toJson_ofParameters h.nodup h.values

theorem decode_of_lists_nested :
    let members : List (String × Json) :=
      [("a b", .array [.object [("x", .int (-5)), ("é", .string "v=&w")], .bool true]),
        ("?n", .null)]
    let query := "a+b[0][x]=-5&a%20b%5B0%5D[%C3%A9]=v=%26w&a+b[1]=true&?n=null"
    Listable members ∧ Lists query members ∧ decode query = .object members := by
  intro members query
  have hmembers : Listable members := by
    constructor
    · decide
    · decide
    · have hitem : Json.Plain (.object [("x", .int (-5)), ("é", .string "v=&w")]) := by
        refine .object (List.cons_ne_nil _ _) (by decide) ?_ ?_
        · simp only [List.forall_mem_cons, Step.Plain]
          decide
        · simp only [List.forall_mem_cons]
          exact ⟨.scalar ⟨by decide, by decide⟩,
            .scalar (show coerce? "v=&w" = some (.string "v=&w") by decide), by simp⟩
      simp only [members, List.forall_mem_cons]
      refine ⟨.array (List.cons_ne_nil _ _) (by decide) ?_, .scalar trivial, by simp⟩
      simp only [List.forall_mem_cons]
      exact ⟨hitem, .scalar trivial, by simp⟩
    · decide
    · decide
  have hquery : Lists query members := by
    refine ⟨["a+b[0][x]".toList ++ '=' :: "-5".toList,
      "a%20b%5B0%5D[%C3%A9]".toList ++ '=' :: "v=%26w".toList,
      "a+b[1]".toList ++ '=' :: "true".toList, "?n".toList ++ '=' :: "null".toList],
      .cons ?_ (.cons ?_ (.cons ?_ (.cons ?_ .nil))), .inr ⟨by decide, by decide⟩⟩
    all_goals exact spellsPair_of_isSpelled (by decide) (by decide)
  exact ⟨hmembers, hquery, (decode_of_lists hmembers).2 query hquery⟩

end RowFilter.QueryString
