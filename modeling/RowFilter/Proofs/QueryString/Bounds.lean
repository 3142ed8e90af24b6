import RowFilter.Compile
import RowFilter.Proofs.Filter.Faults
import RowFilter.Proofs.QueryString.Accumulation

/-!
How large a decoded value can get. A path has a step for each segment and one more for the text behind
them. Storing a value makes a node no deeper than the path is long and one level more, where a value
meets another one at the end of the path; so the depth does not grow with the number of parameters
(`Node.Within.insert`). The number of scalars grows with each parameter by one at most.
-/

set_option autoImplicit false

namespace RowFilter

namespace QueryString

/-! ### Paths -/

theorem length_segments_le (bound : Nat) (text : List Char) :
    (segments bound text).1.length ≤ bound := by
  induction bound generalizing text with
  | zero => exact Nat.le_refl 0
  | succ bound ih =>
    unfold segments
    split
    · exact Nat.zero_le _
    · rename_i rest _
      exact Nat.succ_le_succ (ih rest)

theorem Path.length_tailSteps_le (tail : List Char) : (tailSteps tail).length ≤ 1 := by
  unfold tailSteps
  split <;> simp

/-- A name gives at most one step for each segment and one for the text behind them. -/
theorem Path.length_steps_ofName_le (name : String) :
    (ofName name).steps.length ≤ maxSegments + 1 := by
  have hinner := length_segments_le maxSegments (name.toList.dropWhile (· != '['))
  have htail := length_tailSteps_le (segments maxSegments (name.toList.dropWhile (· != '['))).2
  simp only [ofName]
  split
  · exact Nat.zero_le _
  · rename_i first rest heq
    rw [heq, List.length_cons] at hinner
    rw [List.length_append, List.length_map]
    omega
  · rw [List.length_append, List.length_map]
    omega

theorem Parameter.length_steps_le {pair : String × String} {p : Parameter}
    (h : Parameter.ofPair? pair = some p) : p.path.steps.length ≤ maxSegments + 1 := by
  unfold Parameter.ofPair? at h
  split at h
  · cases h
  · obtain ⟨value, -, rfl⟩ := Option.map_eq_some_iff.mp h
    exact Path.length_steps_ofName_le pair.1

/-! ### Depth -/

namespace Node

/-- No leaf of the node is further down than the bound. -/
inductive Within : Nat → Node → Prop
  | leaf {bound : Nat} (value : Scalar) : Within bound (.leaf value)
  | slots {bound : Nat} {items : List (Nat × Node)} (children : ∀ e ∈ items, Within bound e.2) :
      Within (bound + 1) (.slots items)
  | members {bound : Nat} {items : List (String × Node)}
      (children : ∀ e ∈ items, Within bound e.2) : Within (bound + 1) (.members items)

namespace Within

variable {bound : Nat}

section Change

variable {change : Option Node → Node}
  (hchange : ∀ old : Option Node, (∀ node ∈ old, Within bound node) → Within bound (change old))

include hchange

theorem alterSlots {items : List (Nat × Node)} (h : ∀ e ∈ items, Within bound e.2) (step : Step) :
    Within (bound + 1) (Node.alterSlots change items step) := by
  cases step with
  | key name => exact .members (Assoc.forall_mem_alter hchange (List.forall_mem_map.mpr h))
  | index i => exact .slots (Assoc.forall_mem_alterSorted hchange h)
  | append =>
    refine .slots (List.forall_mem_append.mpr ⟨h, ?_⟩)
    simpa using hchange none (by simp)

theorem alterMembers {items : List (String × Node)} (h : ∀ e ∈ items, Within bound e.2)
    (step : Step) : Within (bound + 1) (Node.alterMembers change items step) := by
  cases step <;> exact .members (Assoc.forall_mem_alter hchange h)

theorem alterChild {node : Node} (h : Within (bound + 1) node) (step : Step) :
    Within (bound + 1) (node.alterChild change step) := by
  cases h with
  | leaf old => exact alterSlots hchange (by simpa using Within.leaf old) step
  | slots children => exact alterSlots hchange children step
  | members children => exact alterMembers hchange children step

end Change

theorem fresh (value : Scalar) {steps : List Step} (h : steps.length ≤ bound) :
    Within bound (Node.fresh value steps) := by
  induction steps generalizing bound with
  | nil => exact .leaf value
  | cons step rest ih =>
    cases bound with
    | zero => exact absurd h (Nat.not_succ_le_zero _)
    | succ below =>
      have hrest : Within below (Node.fresh value rest) := ih (Nat.le_of_succ_le_succ h)
      cases step with
      | key name => exact .members (by simpa using hrest)
      | index i => exact .slots (by simpa using hrest)
      | append => exact .slots (by simpa using hrest)

theorem add {node : Node} (h : Within (bound + 1) node) (value : Scalar) :
    Within (bound + 1) (node.add value) := by
  cases h with
  | leaf old => exact .slots (by simpa using ⟨Within.leaf old, Within.leaf value⟩)
  | slots children =>
    exact .slots (List.forall_mem_append.mpr ⟨children, by simpa using Within.leaf value⟩)
  | members children =>
    exact .members (Assoc.forall_mem_alter (fun _ _ ↦ .leaf (.bool true)) children)

/-- A store keeps a bound that is larger than the number of its steps. -/
theorem insert {node : Node} (h : Within bound node) (value : Scalar) {steps : List Step}
    (hsteps : steps.length < bound) : Within bound (Node.insert value steps node) := by
  induction steps generalizing bound node with
  | nil =>
    -- Two values that meet become a list, one level more than the path has steps.
    cases bound with
    | zero => exact absurd hsteps (Nat.not_lt_zero _)
    | succ below => exact h.add value
  | cons step rest ih =>
    cases bound with
    | zero => exact absurd hsteps (Nat.not_lt_zero _)
    | succ below =>
      have hrest : rest.length < below := Nat.lt_of_succ_lt_succ hsteps
      refine alterChild (fun old hold ↦ ?_) h step
      cases old with
      | none => exact .fresh value hrest.le
      | some child => exact ih (hold child rfl) hrest

theorem length_le {node : Node} (h : Within bound node) :
    ∀ leaf ∈ node.toJson.leaves, leaf.1.length ≤ bound := by
  induction h with
  | leaf value => simp [toJson, Json.leaves]
  | slots _ ih =>
    rw [toJson, slotValues_eq_map]
    intro leaf hleaf
    obtain ⟨_, _, hvalue, inner, hinner, rfl⟩ := Json.exists_of_mem_leaves_array hleaf
    obtain ⟨e, he, rfl⟩ := List.mem_map.mp hvalue
    exact Nat.succ_le_succ (ih e he inner hinner)
  | members _ ih =>
    rw [toJson, memberValues_eq_map]
    intro leaf hleaf
    obtain ⟨m, hm, inner, hinner, rfl⟩ := Json.exists_of_mem_leaves_object hleaf
    obtain ⟨e, he, rfl⟩ := List.mem_map.mp hm
    exact Nat.succ_le_succ (ih e he inner hinner)

end Within

end Node

namespace Tree

/-- However many parameters are stored, no leaf is further below its root than the longest path and
one level more. -/
theorem within_ofParameters {bound : Nat} {ps : List Parameter}
    (h : ∀ p ∈ ps, p.path.steps.length < bound) : ∀ e ∈ ofParameters ps, e.2.Within bound := by
  induction ps using List.reverseRecOn with
  | nil => exact List.forall_mem_nil _
  | append_singleton init p ih =>
    obtain ⟨hinit, hp⟩ := List.forall_mem_append.mp h
    have hsteps : p.path.steps.length < bound := hp p (List.mem_singleton_self p)
    rw [ofParameters_append_singleton]
    refine Assoc.forall_mem_alter (fun old hold ↦ ?_) (ih hinit)
    cases old with
    | none => exact .fresh p.value hsteps.le
    | some node => exact (hold node rfl).insert p.value hsteps

theorem length_le_of_mem_leaves {bound : Nat} {ps : List Parameter}
    (h : ∀ p ∈ ps, p.path.steps.length < bound) :
    ∀ leaf ∈ (ofParameters ps).toJson.leaves, leaf.1.length ≤ bound + 1 := by
  rw [toJson, memberValues_eq_map]
  intro leaf hleaf
  obtain ⟨m, hm, inner, hinner, rfl⟩ := Json.exists_of_mem_leaves_object hleaf
  obtain ⟨e, he, rfl⟩ := List.mem_map.mp hm
  exact Nat.succ_le_succ ((within_ofParameters h e he).length_le inner hinner)

/-- Each parameter adds one scalar at most. -/
theorem card_scalars_ofParameters_le (ps : List Parameter) :
    Multiset.card (ofParameters ps).toJson.scalars ≤ ps.length := by
  induction ps using List.reverseRecOn with
  | nil => exact Nat.le_of_eq (congrArg Multiset.card (Tree.scalars_toJson []))
  | append_singleton init p ih =>
    obtain ⟨s, -, hinsert⟩ := Tree.scalars_insert (wellFormed_ofParameters init) p
    have hcard := congrArg Multiset.card hinsert
    rw [Multiset.card_add, Multiset.card_cons] at hcard
    rw [ofParameters_append_singleton, List.length_append, List.length_singleton]
    omega

end Tree

/-! ### Query strings -/

/-- A decoded value is never refused for not being an object, whatever base and prefixes. -/
theorem compileQueryString_ne_notAnObject (base query : String) (aliases : Option AliasMap) :
    compileQueryString base query aliases ≠ .error ⟨.notAnObject⟩ := by
  obtain ⟨members, hdecode, -⟩ := exists_decode_eq_object query
  intro h
  unfold compileQueryString compileDocument at h
  rw [hdecode] at h
  split at h
  · cases h
  · rename_i cause hread
    have hcause : cause = .notAnObject := by
      injection h with h
      injection h
    rw [hcause] at hread
    have hfirst := ((Filter.stopsAtFirst_ofJson _).eq_error_iff _).mp hread
    exact Json.notAnObject_notMem_faults members (List.mem_of_head? hfirst)

theorem length_parameters_le (query : String) : (parameters query).length ≤ maxParameters := by
  refine Nat.le_trans (List.length_filterMap_le _ _) ?_
  rw [List.length_map]
  exact List.length_take_le _ _

theorem length_steps_lt {query : String} {p : Parameter} (h : p ∈ parameters query) :
    p.path.steps.length < maxSegments + 2 := by
  obtain ⟨pair, -, hpair⟩ := List.mem_filterMap.mp h
  exact Nat.lt_succ_of_le (Parameter.length_steps_le hpair)

/-- Whatever the query string, it is decoded to an object, which is not refused for not being one. No
scalar is more than eight steps below the root, and there are at most as many scalars as parameters,
of which there are at most a thousand. -/
theorem decode_bounded (query : String) :
    (∃ members, decode query = .object members) ∧
      (∀ base aliases, compileQueryString base query aliases ≠ .error ⟨.notAnObject⟩) ∧
      (∀ leaf ∈ (decode query).leaves, leaf.1.length ≤ 8) ∧
      (decode query).leaves.length ≤ (parameters query).length ∧
      (parameters query).length ≤ 1000 := by
  obtain ⟨members, hdecode, -⟩ := exists_decode_eq_object query
  have hdepth : ∀ leaf ∈ (decode query).leaves, leaf.1.length ≤ maxSegments + 2 + 1 :=
    Tree.length_le_of_mem_leaves fun _ ↦ length_steps_lt
  have hcount : (decode query).leaves.length ≤ (parameters query).length := by
    rw [← Json.card_scalars]
    exact Tree.card_scalars_ofParameters_le (parameters query)
  exact ⟨⟨members, hdecode⟩,
    fun base aliases ↦ compileQueryString_ne_notAnObject base query aliases,
    hdepth, hcount, length_parameters_le query⟩

/-- Eight steps are reached: a root, five brackets, the text behind them, and a list. -/
theorem decode_bounded_at_eight_steps :
    let query := "a[b][c][d][e][f]g=1&a[b][c][d][e][f]g=2"
    let leaf : Leaf := (["a", "b", "c", "d", "e", "f", "g"].map .key ++ [.index 1], .int 2)
    leaf ∈ (decode query).leaves ∧ leaf.1.length = 8 ∧ leaf.1.length ≤ 8 ∧
      (decode query).leaves.length ≤ (parameters query).length := by
  intro query leaf
  have hleaf : leaf ∈ (decode query).leaves := by decide +kernel
  obtain ⟨-, -, hdepth, hcount, -⟩ := decode_bounded query
  exact ⟨hleaf, rfl, hdepth leaf hleaf, hcount⟩

end QueryString

end RowFilter
