import RowFilter.Proofs.QueryString.Isolation
import RowFilter.Proofs.QueryString.Numeral

/-!
Which pieces of a query string are read. The first thousand are, and no others; a piece counts
whether or not it gives a parameter. Among the pieces that are read, one without a name and one
whose value means "leave it out" could as well be missing, wherever it stands (`decode_joined`).
-/

set_option autoImplicit false

namespace RowFilter.QueryString

/-- The query string of some pieces. The question mark in front is no part of the first one, which
may begin with a question mark of its own. -/
def joined (parts : List (List Char)) : String :=
  String.ofList ('?' :: List.intercalate ['&'] parts)

/-! ### Parameters -/

theorem Parameter.ofPair?_eq_none_iff {pair : String × String} :
    Parameter.ofPair? pair = none ↔ pair.1 = "" ∨ pair.2 = "undefined" := by
  unfold Parameter.ofPair?
  by_cases hname : pair.1 = ""
  · simp [hname]
  · rw [if_neg hname, Option.map_eq_none_iff, coerce?_eq_none_iff]
    exact (or_iff_right hname).symm

variable {parts : List (List Char)}

theorem pieces_joined (h : ∀ part ∈ parts, part ≠ [] ∧ '&' ∉ part) :
    pieces (joined parts) = parts :=
  pieces_of_intercalate h (.inl String.toList_ofList)

theorem pairs_joined (h : ∀ part ∈ parts, part ≠ [] ∧ '&' ∉ part) :
    pairs (joined parts) = parts.map pairOf := by
  rw [pairs, pieces_joined h]

theorem parameters_joined (h : ∀ part ∈ parts, part ≠ [] ∧ '&' ∉ part) :
    parameters (joined parts) =
      ((parts.take 1000).map pairOf).filterMap Parameter.ofPair? := by
  rw [parameters_eq_take, pairs_joined h, ← List.map_take]
  rfl

/-- A piece that gives no parameter leaves no trace among those of the other pieces. -/
theorem filterMap_ofPair?_append_cons {before after : List (List Char)} {piece : List Char}
    (h : Parameter.ofPair? (pairOf piece) = none) :
    ((before ++ piece :: after).map pairOf).filterMap Parameter.ofPair? =
      ((before ++ after).map pairOf).filterMap Parameter.ofPair? := by
  rw [List.map_append, List.map_cons, List.filterMap_append, List.filterMap_cons_none h,
    ← List.filterMap_append, ← List.map_append]

/-! ### Decoding -/

theorem decode_eq_of_parameters {query other : String} (h : parameters query = parameters other) :
    decode query = decode other := by
  rw [decode, decode, h]

/-- The roots of the pairs that are read and kept, and no others, are the names that are decoded. -/
theorem member?_decode_ne_none_iff {query root : String} :
    (decode query).member? root ≠ none ↔ root ∈ ((pairs query).take 1000).filterMap keptRoot? := by
  obtain ⟨members, hdecode, -⟩ := exists_decode_eq_object query
  rw [hdecode, Json.member?_ne_none_iff, ← hdecode, memberNames_decode, List.mem_eraseDups,
    parameters_eq_take, List.map_filterMap]
  rfl

/-- A root that no piece before has given is decoded exactly if its piece is one of the first
thousand. -/
theorem member?_decode_last_iff {piece : List Char} {root : String}
    (h : ∀ part ∈ parts ++ [piece], part ≠ [] ∧ '&' ∉ part)
    (hroot : keptRoot? (pairOf piece) = some root)
    (hfresh : root ∉ (parts.map pairOf).filterMap keptRoot?) :
    (decode (joined (parts ++ [piece]))).member? root ≠ none ↔ parts.length < 1000 := by
  rw [member?_decode_ne_none_iff, pairs_joined h, List.map_append]
  constructor
  · intro hmem
    by_contra hmany
    have hlength : 1000 ≤ (parts.map pairOf).length := by
      rw [List.length_map]
      exact Nat.le_of_not_lt hmany
    rw [List.take_append_of_le_length hlength] at hmem
    obtain ⟨pair, hpair, hkept⟩ := List.mem_filterMap.mp hmem
    exact hfresh (List.mem_filterMap.mpr ⟨pair, List.mem_of_mem_take hpair, hkept⟩)
  · intro hfew
    have hlength : (parts.map pairOf ++ [piece].map pairOf).length ≤ 1000 := by
      rw [List.length_append, List.length_map]
      exact hfew
    rw [List.take_of_length_le hlength, List.filterMap_append]
    exact List.mem_append_right _ (List.mem_filterMap.mpr ⟨_, List.mem_singleton_self _, hroot⟩)

/-- Pieces are decoded like the first thousand of them, in whatever query string they stand, and the
thousandth is still read: a last piece with a root of its own is decoded exactly if fewer than a
thousand pieces stand before it. Of at most a thousand pieces, each one that has no name or a value
to be left out can be deleted without any change to what is decoded. -/
theorem decode_joined (h : ∀ part ∈ parts, part ≠ [] ∧ '&' ∉ part) :
    pieces (joined parts) = parts ∧
      (∀ query, pieces query = parts → decode query = decode (joined (parts.take 1000))) ∧
      (∀ piece root, (piece ≠ [] ∧ '&' ∉ piece) → keptRoot? (pairOf piece) = some root →
        root ∉ (parts.map pairOf).filterMap keptRoot? →
        ((decode (joined (parts ++ [piece]))).member? root ≠ none ↔ parts.length < 1000)) ∧
      (parts.length ≤ 1000 → ∀ before piece after, parts = before ++ piece :: after →
        (pairOf piece).1 = "" ∨ (pairOf piece).2 = "undefined" →
        decode (joined (before ++ after)) = decode (joined parts)) := by
  refine ⟨pieces_joined h, fun query hquery ↦ ?_, fun piece root hpiece hroot hfresh ↦ ?_,
    fun hlength before piece after hparts hpiece ↦ ?_⟩
  · have hfirst : ∀ part ∈ parts.take 1000, part ≠ [] ∧ '&' ∉ part :=
      fun part hpart ↦ h part (List.mem_of_mem_take hpart)
    apply decode_eq_of_parameters
    rw [parameters_joined hfirst, List.take_take, Nat.min_self, parameters, hquery]
    rfl
  · refine member?_decode_last_iff (List.forall_mem_append.mpr ⟨h, ?_⟩) hroot hfresh
    exact List.forall_mem_singleton.mpr hpiece
  · subst hparts
    have hrest : ∀ part ∈ before ++ after, part ≠ [] ∧ '&' ∉ part := by
      intro part hpart
      apply h
      exact (List.sublist_cons_self piece after).append_left before |>.mem hpart
    have hrestLength : (before ++ after).length ≤ 1000 :=
      ((List.sublist_cons_self piece after).append_left before).length_le.trans hlength
    apply decode_eq_of_parameters
    rw [parameters_joined hrest, parameters_joined h, List.take_of_length_le hrestLength,
      List.take_of_length_le hlength,
      filterMap_ofPair?_append_cons (Parameter.ofPair?_eq_none_iff.mpr hpiece)]

/-- A thousand pieces without a name leave no room for another one, and between two appends a piece
that spells the word for "leave it out" takes no index. -/
theorem decode_joined_behind_unnamed :
    let unnamed := List.replicate 1000 ['=', 'x']
    let first := "?a[]=1".toList
    let skipped := "?a[]=%75ndefined".toList
    let second := "?a[]=2".toList
    (decode (joined (unnamed ++ ["a=1".toList]))).member? "a" = none ∧
      decode (joined [first, second]) = decode (joined [first, skipped, second]) ∧
      decode (joined [first, second]) = .object [("?a", .array [.int 1, .int 2])] := by
  intro unnamed first skipped second
  have hunnamed : ∀ part ∈ unnamed, part ≠ [] ∧ '&' ∉ part := by
    intro part hpart
    rw [List.eq_of_mem_replicate hpart]
    decide
  have hfresh : "a" ∉ (unnamed.map pairOf).filterMap keptRoot? := by
    rw [List.map_replicate, List.filterMap_replicate_of_none (by decide)]
    exact List.not_mem_nil
  have hlast := (decode_joined hunnamed).2.2.1 "a=1".toList "a" (by decide) (by decide) hfresh
  have hparameters : parameters (joined [first, second]) =
      [⟨⟨"?a", [.append]⟩, .int 1⟩, ⟨⟨"?a", [.append]⟩, .int 2⟩] := by decide +kernel
  refine ⟨?_, ?_, ?_⟩
  · by_contra hpresent
    have hfew := hlast.mp hpresent
    rw [List.length_replicate] at hfew
    exact Nat.lt_irrefl 1000 hfew
  · exact (@decode_joined [first, skipped, second] (by decide)).2.2.2 (by decide) [first] skipped
      [second] rfl (by decide)
  · rw [decode, hparameters]
    rfl

end RowFilter.QueryString
