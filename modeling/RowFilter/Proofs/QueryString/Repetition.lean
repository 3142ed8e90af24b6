import RowFilter.Proofs.QueryString.Isolation
import RowFilter.Proofs.QueryString.Path

/-!
Values that come to one root again and again. A name by itself and a name with empty brackets may
alternate, and pairs of other roots may stand between them: the first value makes a leaf or a list,
the next one makes a list of the leaf, and every further one goes behind the last (`Gathers`). So a
single bare value stays a scalar, and all others are listed in the order in which they came
(`member?_decode_of_repeated`).
-/

set_option autoImplicit false

namespace RowFilter.QueryString

/-! ### Growing -/

/-- A place that leaves have come to, each of them bare or appended: nothing, one bare leaf, or
slots with their values in order. -/
inductive Gathers : List Leaf → Option Node → Prop
  | none : Gathers [] none
  | leaf (value : Scalar) : Gathers [([], value)] (some (.leaf value))
  | slots {leaves : List Leaf} {items : List (Nat × Node)} (ne_nil : leaves ≠ [])
      (ne_leaf : ∀ value, leaves ≠ [([], value)])
      (values : Node.slotValues items = leaves.map fun leaf ↦ .scalar leaf.2) :
      Gathers leaves (some (.slots items))

/-- Slots with the values of some leaves, and behind them the value of one more leaf. -/
theorem gathers_behind {leaves : List Leaf} {items : List (Nat × Node)} (hne : leaves ≠ [])
    (hvalues : Node.slotValues items = leaves.map fun leaf ↦ .scalar leaf.2) (leaf : Leaf)
    (i : Nat) : Gathers (leaves ++ [leaf]) (some (.slots (items ++ [(i, .leaf leaf.2)]))) := by
  refine .slots (List.append_ne_nil_of_left_ne_nil hne _) (fun value h ↦ ?_) ?_
  · have hlength := congrArg List.length h
    rw [List.length_append, List.length_singleton, List.length_singleton] at hlength
    exact hne (List.length_eq_zero_iff.mp (Nat.add_eq_right.mp hlength))
  · rw [slotValues_eq_map] at hvalues ⊢
    rw [List.map_append, hvalues, List.map_append]
    rfl

theorem Gathers.store {leaves : List Leaf} {place : Option Node} (h : Gathers leaves place)
    {leaf : Leaf} (hleaf : leaf.1 = [] ∨ leaf.1 = [.append]) :
    Gathers (leaves ++ [leaf]) (some (QueryString.store leaf place)) := by
  obtain ⟨steps, value⟩ := leaf
  -- Where something is already, a bare value and an appended one come to the same slot.
  cases h with
  | none =>
    rcases hleaf with rfl | rfl
    · exact .leaf value
    · exact .slots (List.cons_ne_nil _ _) (by simp) rfl
  | leaf old =>
    have hbehind (steps : List Step) := @gathers_behind [([], old)] [(0, .leaf old)]
      (List.cons_ne_nil _ _) rfl (steps, value) 1
    rcases hleaf with rfl | rfl
    · exact hbehind []
    · exact hbehind [.append]
  | slots ne_nil _ values =>
    have hbehind (steps : List Step) := gathers_behind ne_nil values (steps, value)
    rcases hleaf with rfl | rfl
    · exact hbehind [] _
    · exact hbehind [.append] _

theorem gathers_grow {leaves : List Leaf} (h : ∀ leaf ∈ leaves, leaf.1 = [] ∨ leaf.1 = [.append]) :
    Gathers leaves (grow leaves none) := by
  induction leaves using List.reverseRecOn with
  | nil => exact .none
  | append_singleton init leaf ih =>
    rw [grow_append]
    exact (ih fun l hl ↦ h l (List.mem_append_left _ hl)).store (h leaf (by simp))

/-! ### Decoding -/

/-- The names and values of the kept pairs of a root, in order. -/
def received (root : String) (ps : List (String × String)) : List (String × Scalar) :=
  (ps.filter (HasRoot root)).filterMap fun pair ↦
    (coerce? pair.2).map fun value ↦ (pair.1, value)

theorem leavesUnder_parameters_take (query root : String) :
    leavesUnder root (parameters query) =
      (received root ((pairs query).take 1000)).map fun e ↦ ((Path.ofName e.1).steps, e.2) := by
  rw [leavesUnder, parameters_eq_take, ← filterMap_filter_hasRoot, received, List.map_filterMap,
    List.map_filterMap]
  refine List.filterMap_congr fun pair hpair ↦ ?_
  have hroot : HasRoot root pair := by simpa using (List.mem_filter.mp hpair).2
  rw [Parameter.ofPair?, if_neg hroot.1, Option.map_map, Option.map_map]
  rfl

theorem leavesUnder_parameters {query : String} (h : (pairs query).length ≤ 1000) (root : String) :
    leavesUnder root (parameters query) =
      (received root (pairs query)).map fun e ↦ ((Path.ofName e.1).steps, e.2) := by
  rw [leavesUnder_parameters_take, List.take_of_length_le h]

/-- A root by itself and with empty brackets behind it leads to a bare and to an appended value. -/
theorem steps_ofName_root {root : String} (hne : root ≠ "") (hbracket : '[' ∉ root.toList) :
    (Path.ofName root).steps = [] ∧ (Path.ofName (root ++ "[]")).steps = [.append] := by
  have hplain : Path.Plain ⟨root, []⟩ := ⟨hne, hbracket, Nat.zero_le 5, List.forall_mem_nil _⟩
  have htext : Path.text ⟨root, []⟩ = root := by simp [Path.text, bracketed]
  have hbare := Path.ofName_text hplain
  have happended := Path.ofName_text (hplain.append (Nat.zero_lt_succ 4))
  rw [← Path.text_append_brackets] at happended
  rw [htext] at hbare happended
  exact ⟨by rw [hbare], by rw [happended]; rfl⟩

/-- If all kept pairs of a root have it as their name, bare or with empty brackets behind it, the
value under the root is absent without such a pair, the scalar of a single bare pair, and otherwise
the list of all values in the order in which they came. -/
theorem member?_decode_of_repeated {query root : String} (hne : root ≠ "")
    (hbracket : '[' ∉ root.toList) (hlength : (pairs query).length ≤ 1000)
    (hnames : ∀ e ∈ received root (pairs query), e.1 = root ∨ e.1 = root ++ "[]") :
    (received root (pairs query) = [] → (decode query).member? root = none) ∧
      (∀ value, received root (pairs query) = [(root, value)] →
        (decode query).member? root = some (.scalar value)) ∧
      (received root (pairs query) ≠ [] → (∀ value, received root (pairs query) ≠ [(root, value)]) →
        (decode query).member? root =
          some (.array ((received root (pairs query)).map fun e ↦ .scalar e.2))) := by
  obtain ⟨hbare, happended⟩ := steps_ofName_root hne hbracket
  have hsteps : ∀ e ∈ received root (pairs query),
      (Path.ofName e.1).steps = [] ∧ e.1 = root ∨ (Path.ofName e.1).steps = [.append] := by
    intro e he
    rcases hnames e he with hname | hname
    · exact .inl ⟨by rw [hname, hbare], hname⟩
    · exact .inr (by rw [hname, happended])
  have hleaves : ∀ leaf ∈ (received root (pairs query)).map fun e ↦ ((Path.ofName e.1).steps, e.2),
      leaf.1 = [] ∨ leaf.1 = [.append] :=
    List.forall_mem_map.mpr fun e he ↦ (hsteps e he).imp_left And.left
  have hgathers := gathers_grow hleaves
  rw [member?_decode, leavesUnder_parameters hlength]
  generalize grow _ none = place at hgathers ⊢
  generalize received root (pairs query) = arrived at hsteps hgathers ⊢
  refine ⟨?_, ?_, fun hsome hseveral ↦ ?_⟩
  · rintro rfl
    cases hgathers with
    | none => rfl
    | slots ne_nil _ _ => exact absurd rfl ne_nil
  · rintro value rfl
    rw [List.map_singleton, hbare] at hgathers
    cases hgathers with
    | leaf _ => rfl
    | slots _ ne_leaf _ => exact absurd rfl (ne_leaf value)
  · generalize hmap : arrived.map _ = leaves at hgathers
    cases hgathers with
    | none => exact absurd (List.map_eq_nil_iff.mp hmap) hsome
    | leaf value =>
      obtain ⟨e, rfl, heq⟩ := List.map_eq_singleton_iff.mp hmap
      obtain ⟨hnone, rfl⟩ := Prod.mk.inj heq
      rcases hsteps e (List.mem_singleton_self e) with ⟨-, hname⟩ | happend
      · exact absurd (by rw [← hname]) (hseveral e.2)
      · rw [happend] at hnone
        cases hnone
    | slots _ _ values =>
      rw [← hmap, List.map_map] at values
      rw [Option.map_some, Node.toJson, values]
      rfl

theorem member?_decode_of_repeated_among_others :
    (decode "a=1&b=2&a[]=x&a=undefined&b[c]=3&a=true").member? "a" =
      some (.array [.int 1, .string "x", .bool true]) := by
  have hreceived : received "a" (pairs "a=1&b=2&a[]=x&a=undefined&b[c]=3&a=true") =
      [("a", .int 1), ("a[]", .string "x"), ("a", .bool true)] := by decide +kernel
  have hnames : ∀ e ∈ received "a" (pairs "a=1&b=2&a[]=x&a=undefined&b[c]=3&a=true"),
      e.1 = "a" ∨ e.1 = "a" ++ "[]" := by
    rw [hreceived]
    decide
  have hvalue := member?_decode_of_repeated (by decide) (by decide) (by decide +kernel) hnames
  rw [hreceived] at hvalue
  exact hvalue.2.2 (by simp) (by simp)

end RowFilter.QueryString
