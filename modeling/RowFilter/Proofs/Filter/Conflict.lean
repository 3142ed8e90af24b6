import RowFilter.Compile
import RowFilter.Proofs.Filter.Reading
import RowFilter.Proofs.QueryString.Displacement
import RowFilter.Proofs.QueryString.WellFormed

/-!
Conflicting spellings of one parameter: a value without steps, and another parameter of the same
root. What they come to is no single value, so it is no bound of a page and no value of a field; it
can only be read as an object, of directions or of comparisons, or as a list of groups. A value that
arrives at an object becomes the name of a member, and this is how some conflicts are merged: under
the sort directive where all names are identifiers (`exists_order_iff`), and under a field where all
names are comparisons (`exists_comparisons_iff`). All others are rejected, whatever stands around
them (`exists_error_of_conflict`), unless a member of a group is displaced; and those that are
merged do compile (`exists_ok_of_merges`).
-/

set_option autoImplicit false

namespace RowFilter

open QueryString

/-! ### Conflicts -/

/-- A value of a root without steps, and at least one more leaf under this root. -/
structure Conflict (root : String) (ps : List Parameter) : Prop where
  flat : ∃ leaf ∈ leavesUnder root ps, leaf.1 = []
  further : 2 ≤ (leavesUnder root ps).length

/-- Leaves that merge to an order: some leaf begins with a key, and from the first such leaf on
every name is an identifier. -/
def MergesToOrder (leaves : List Leaf) : Prop :=
  ∃ earlier first later, leaves = earlier ++ first :: later ∧
    (∀ leaf ∈ earlier, leaf.isKeyed = false) ∧ first.isKeyed = true ∧
      ∀ leaf ∈ first :: later, ∀ name ∈ leaf.name?, isIdentifier name = true

/-- Leaves that merge to comparisons: the first begins with a key, every name is the directive of a
comparison, and the last leaf of each name is a value without steps, or the only one of its name
and without further steps. -/
structure MergesToComparisons (leaves : List Leaf) : Prop where
  first : ∀ leaf ∈ leaves.head?, leaf.isKeyed = true
  names : ∀ leaf ∈ leaves, ∃ name ∈ leaf.name?, (Operator.ofDirective? name).isSome
  values : ∀ name earlier last, Leaf.named name leaves = earlier ++ [last] →
    last.1 = [] ∨ earlier = [] ∧ last.1 = [.key name]

/-- The conflicts that are merged: to an order, or to comparisons of a field. -/
def Merges (root : String) (leaves : List Leaf) : Prop :=
  root = MemberKind.sortKey ∧ MergesToOrder leaves ∨
    isIdentifier root = true ∧ MergesToComparisons leaves

/-! ### Numbers as names -/

theorem isDigit_of_mem_toString (i : Nat) : ∀ c ∈ (toString i).toList, c.isDigit = true := by
  intro c hc
  rw [Nat.toString_eq_repr, Nat.toList_repr] at hc
  exact Nat.isDigit_of_mem_toDigits (by decide) (by decide) hc

theorem Operator.ofDirective?_toString (i : Nat) : ofDirective? (toString i) = none := by
  rw [ofDirective?, List.find?_eq_none]
  intro operator _ heq
  have hdollar : '$' ∈ (toString i).toList := by
    rw [← of_decide_eq_true heq]
    cases operator <;> decide
  exact absurd (isDigit_of_mem_toString i '$' hdollar) (by decide)

theorem isIdentifier_toString (i : Nat) : isIdentifier (toString i) = true := by
  rw [isIdentifier, Bool.and_eq_true, Bool.not_eq_true', List.isEmpty_eq_false_iff]
  refine ⟨?_, List.all_eq_true.mpr fun c hc ↦ ?_⟩
  · rw [Nat.toString_eq_repr, Nat.toList_repr]
    exact Nat.toDigits_ne_nil
  · rw [isWordChar, Char.isAlphanum, isDigit_of_mem_toString i c hc, Bool.or_true, Bool.true_or]

/-! ### What leaves come to -/

section Node

variable {leaves : List Leaf} {node : Node}

theorem forall_memberValues_iff (p : String → Prop) {items : List (String × Node)} :
    (∀ m ∈ Node.memberValues items, p m.1) ↔
      ∀ name, (Node.members items).HasName name → p name := by
  rw [← List.forall_mem_map (f := Prod.fst), map_fst_memberValues]
  rfl

theorem mergesToOrder_of_ofJson (hfurther : 2 ≤ leaves.length) (hnode : grow leaves none = some node)
    {ts : List SortTerm} (h : SortTerm.ofJson node.toJson = .ok ts) : MergesToOrder leaves := by
  cases node with
  | leaf value => exact absurd rfl (grow_ne_leaf hfurther hnode value)
  | slots items => cases h
  | members items =>
    have hnames := (forall_memberValues_iff (isIdentifier · = true)).mp
      (SortTerm.exists_ofJson_object_iff.mp ⟨ts, h⟩)
    cases hfind : leaves.find? Leaf.isKeyed with
    | none =>
      have hunkeyed : ∀ leaf ∈ leaves, leaf.isKeyed = false := by
        simpa using List.find?_eq_none.mp hfind
      exact absurd hnode (grow_ne_members hunkeyed (by simp) items)
    | some first =>
      obtain ⟨hfirst, earlier, later, rfl, hearlier⟩ := List.find?_eq_some_iff_append.mp hfind
      refine ⟨earlier, first, later, rfl, by simpa using hearlier, hfirst, ?_⟩
      intro leaf hleaf name hname
      obtain ⟨_, own, hgrow, hown, hcases⟩ :=
        exists_hasName_of_mem hfirst hleaf (grow earlier none)
      rw [grow_append, hgrow] at hnode
      cases hnode
      rcases hcases with heq | ⟨heq, -⟩
      · cases hname.symm.trans heq
        exact hnames name hown
      · cases hname.symm.trans heq

theorem exists_ofJson_of_mergesToOrder (hnode : grow leaves none = some node)
    (h : MergesToOrder leaves) : ∃ ts, SortTerm.ofJson node.toJson = .ok ts := by
  obtain ⟨earlier, first, later, rfl, hearlier, hfirst, hnames⟩ := h
  rw [grow_append] at hnode
  obtain ⟨_, own, hgrow, hown, -⟩ :=
    exists_hasName_of_mem hfirst List.mem_cons_self (grow earlier none)
  cases hgrow.symm.trans hnode
  obtain ⟨items, rfl⟩ := hown.exists_eq_members
  refine SortTerm.exists_ofJson_object_iff.mpr
    ((forall_memberValues_iff (isIdentifier · = true)).mpr fun name hname ↦ ?_)
  rcases cases_of_hasName_grow hnode hname with
    ⟨old, hold, hname⟩ | ⟨leaf, hleaf, hname⟩ | hnumber
  · obtain ⟨entries, rfl⟩ := hname.exists_eq_members
    exact absurd hold (grow_ne_members hearlier (by simp) entries)
  · exact hnames leaf hleaf name hname
  · obtain ⟨i, rfl⟩ := hnumber
    exact isIdentifier_toString i

/-- What leaves come to is an order exactly if they merge to one. -/
theorem exists_order_iff (hfurther : 2 ≤ leaves.length) (hnode : grow leaves none = some node) :
    (∃ ts, SortTerm.ofJson node.toJson = .ok ts) ↔ MergesToOrder leaves :=
  ⟨fun ⟨_, h⟩ ↦ mergesToOrder_of_ofJson hfurther hnode h, exists_ofJson_of_mergesToOrder hnode⟩

theorem eq_leaf_of_toJson {s : Scalar} (h : node.toJson = .scalar s) :
    node = .leaf s := by
  cases node with
  | leaf value =>
    cases h
    rfl
  | slots _ => cases h
  | members _ => cases h

theorem ne_toString_of_directive {name : String} (h : (Operator.ofDirective? name).isSome)
    (i : Nat) : name ≠ toString i := by
  rintro rfl
  rw [Operator.ofDirective?_toString] at h
  cases h

/-- The last leaf of a name leaves a single value if it is a value by itself, or if it is the only
one and has no further steps. -/
theorem change_eq_leaf_iff {name : String} {earlier : List Leaf} {last : Leaf}
    (hname : last.name? = some name) (hnumber : ∀ i : Nat, name ≠ toString i) :
    (∃ s, last.change (Leaf.changes earlier) = .leaf s) ↔
      last.1 = [] ∨ earlier = [] ∧ last.1 = [.key name] := by
  obtain ⟨steps, value⟩ := last
  cases steps with
  | nil => exact iff_of_true ⟨_, rfl⟩ (.inl rfl)
  | cons step rest =>
    constructor
    · rintro ⟨s, hs⟩
      refine .inr ?_
      rcases List.eq_nil_or_concat' earlier with rfl | ⟨init, leaf, rfl⟩
      · refine ⟨rfl, ?_⟩
        cases step with
        | key own =>
          cases hname
          cases rest with
          | nil => rfl
          | cons step rest => cases step <;> cases hs
        | index i =>
          cases hname
          exact absurd rfl (hnumber i)
        | append => cases hname
      · rw [Leaf.changes_append_singleton] at hs
        exact absurd hs (store_some_ne_leaf (rest, value) _ s)
    · rintro (hnil | ⟨rfl, hsteps⟩)
      · cases hnil
      · cases hsteps
        exact ⟨value, rfl⟩

/-- Members that are all comparisons have grown out of a key and of leaves with the names of
comparisons. -/
theorem names_of_comparisons {first : Leaf} {later : List Leaf} {items : List (String × Node)}
    (hnode : grow (first :: later) none = some (.members items))
    (hdirective : ∀ name, (Node.members items).HasName name →
      (Operator.ofDirective? name).isSome) :
    first.isKeyed = true ∧ ∀ leaf ∈ first :: later,
      ∃ name ∈ leaf.name?, (Operator.ofDirective? name).isSome := by
  have hfirst : first.isKeyed = true := by
    by_contra hunkeyed
    obtain ⟨_, hgrow, hcounted⟩ := counted_grow (eq_false_of_ne_true hunkeyed) later
    cases hgrow.symm.trans hnode
    obtain ⟨i, hi⟩ := hcounted
    exact ne_toString_of_directive (hdirective _ hi) i rfl
  refine ⟨hfirst, fun leaf hleaf ↦ ?_⟩
  obtain ⟨_, name, hgrow, hname, hcases⟩ := exists_hasName_of_mem hfirst hleaf none
  cases hgrow.symm.trans hnode
  rcases hcases with hown | ⟨-, i, hi⟩
  · exact ⟨name, hown, hdirective name hname⟩
  · exact absurd hi (ne_toString_of_directive (hdirective name hname) i)

theorem isSome_name?_of_names (hnames : ∀ leaf ∈ leaves,
    ∃ name ∈ leaf.name?, (Operator.ofDirective? name).isSome) :
    ∀ leaf ∈ leaves, leaf.name?.isSome := by
  intro leaf hleaf
  obtain ⟨name, hname, -⟩ := hnames leaf hleaf
  exact Option.isSome_of_mem hname

theorem mergesToComparisons_of_ofMember (hfurther : 2 ≤ leaves.length)
    (hnode : grow leaves none = some node) {root : String} {c : FieldCondition}
    (h : FieldCondition.ofMember (root, node.toJson) = .ok c) :
    isIdentifier root = true ∧ MergesToComparisons leaves := by
  obtain ⟨first, later, rfl⟩ : ∃ first later, leaves = first :: later :=
    List.exists_cons_of_length_pos (by omega)
  cases node with
  | leaf value => exact absurd rfl (grow_ne_leaf hfurther hnode value)
  | slots items => cases (FieldCondition.eq_of_ofMember h).2
  | members items =>
    obtain ⟨hroot, hmembers⟩ := FieldCondition.exists_ofMember_object_iff.mp ⟨c, h⟩
    have hdirective := (forall_memberValues_iff fun name ↦
      (Operator.ofDirective? name).isSome = true).mp fun m hm ↦ (hmembers m hm).1
    obtain ⟨hfirst, hnames⟩ := names_of_comparisons hnode hdirective
    obtain ⟨_, hgrow, hitems⟩ := exists_grow_eq_members hfirst (isSome_name?_of_names hnames)
    cases hgrow.symm.trans hnode
    refine ⟨hroot, ⟨by simpa using hfirst, hnames, fun name earlier last hnamed ↦ ?_⟩⟩
    have hentry := (hitems name _).mpr ⟨earlier, last, hnamed, rfl⟩
    rw [memberValues_eq_map] at hmembers
    obtain ⟨hoperator, s, hs⟩ := hmembers _ (List.mem_map_of_mem hentry)
    exact (change_eq_leaf_iff (Leaf.mem_of_named_eq hnamed).2
      (ne_toString_of_directive hoperator)).mp ⟨s, eq_leaf_of_toJson hs⟩

theorem exists_ofMember_of_mergesToComparisons (hfurther : 2 ≤ leaves.length)
    (hnode : grow leaves none = some node) {root : String} (hroot : isIdentifier root = true)
    (h : MergesToComparisons leaves) :
    ∃ c, FieldCondition.ofMember (root, node.toJson) = .ok c := by
  obtain ⟨first, later, rfl⟩ : ∃ first later, leaves = first :: later :=
    List.exists_cons_of_length_pos (by omega)
  obtain ⟨items, hgrow, hitems⟩ :=
    exists_grow_eq_members (h.first first rfl) (isSome_name?_of_names h.names)
  cases hgrow.symm.trans hnode
  refine FieldCondition.exists_ofMember_object_iff.mpr ⟨hroot, ?_⟩
  rw [memberValues_eq_map]
  refine List.forall_mem_map.mpr fun ⟨name, child⟩ hentry ↦ ?_
  obtain ⟨earlier, last, hnamed, rfl⟩ := (hitems name child).mp hentry
  obtain ⟨hmem, hname⟩ := Leaf.mem_of_named_eq hnamed
  obtain ⟨_, hown, hoperator⟩ := h.names last hmem
  cases hname.symm.trans hown
  obtain ⟨s, hs⟩ := (change_eq_leaf_iff hname (ne_toString_of_directive hoperator)).mpr
    (h.values name earlier last hnamed)
  exact ⟨hoperator, s, by rw [hs]; rfl⟩

/-- What leaves come to is a condition of a field exactly if they merge to comparisons. -/
theorem exists_comparisons_iff (hfurther : 2 ≤ leaves.length)
    (hnode : grow leaves none = some node) {root : String} :
    (∃ c, FieldCondition.ofMember (root, node.toJson) = .ok c) ↔
      isIdentifier root = true ∧ MergesToComparisons leaves :=
  ⟨fun ⟨_, h⟩ ↦ mergesToComparisons_of_ofMember hfurther hnode h,
    fun ⟨hroot, h⟩ ↦ exists_ofMember_of_mergesToComparisons hfurther hnode hroot h⟩

/-- What has become of a value by itself is no alternative of a group. -/
theorem toJson_ne_alternative (h : Bare node) {member : String × Json} {c : FieldCondition}
    (hmember : FieldCondition.ofMember member = .ok c) : node.toJson ≠ .object [member] := by
  cases h with
  | leaf value => exact Json.noConfusion
  | slots first more => exact Json.noConfusion
  | @members child rest first more =>
    intro heq
    injection heq with heq
    injection heq with hfirst hrest
    subst hfirst
    cases rest with
    | cons e rest => cases hrest
    | nil =>
      have hcontainer := more.resolve_left (not_not_intro rfl)
      cases first with
      | leaf value => exact hcontainer value rfl
      | slots _ _ => cases (FieldCondition.eq_of_ofMember hmember).2
      | members _ _ =>
        obtain ⟨hoperator, -⟩ :=
          (FieldCondition.exists_ofMember_object_iff.mp ⟨c, hmember⟩).2 _ List.mem_cons_self
        exact ne_toString_of_directive hoperator 0 (by decide : "0" = toString 0)

/-- A value without steps spoils a list of groups, unless a member is displaced. -/
theorem displaces_of_ofDisjunction (hflat : ∃ leaf ∈ leaves, leaf.1 = [])
    (hfurther : 2 ≤ leaves.length) (hnode : grow leaves none = some node)
    {group : Option (List FieldCondition)}
    (h : FieldCondition.ofDisjunction node.toJson = .ok group) : Displaces leaves := by
  by_contra hkept
  obtain ⟨⟨_, value⟩, hleaf, rfl⟩ := hflat
  obtain ⟨before, later, rfl⟩ := List.append_of_mem hleaf
  obtain ⟨_, hgrow, hblocked⟩ := blocked_grow before value hkept
  cases hgrow.symm.trans hnode
  cases node with
  | leaf value => exact grow_ne_leaf hfurther hnode value rfl
  | members items => cases h
  | slots items =>
    obtain ⟨i, child, hat, hbare⟩ := hblocked
    obtain ⟨cs, hcs, -⟩ := map_eq_ok.mp h
    have hitem : child.toJson ∈ Node.slotValues items := by
      rw [slotValues_eq_map]
      exact List.mem_map_of_mem (Assoc.mem_of_get?_eq_some hat)
    obtain ⟨c, -, member, heq, hmember⟩ :=
      exists_mem_of_forall₂ (FieldCondition.forall₂_of_ofAlternatives hcs).flip hitem
    exact toJson_ne_alternative hbare hmember heq

end Node

/-! ### Query strings -/

section Root

variable {root : String} {ps : List Parameter} {node : Node}

theorem exists_grow_of_conflict (h : Conflict root ps) :
    ∃ node, grow (leavesUnder root ps) none = some node := by
  have hfurther := h.further
  obtain ⟨first, later, hleaves⟩ : ∃ first later, leavesUnder root ps = first :: later :=
    List.exists_cons_of_length_pos (by omega)
  obtain ⟨node, hnode⟩ := exists_grow_some later (store first none)
  exact ⟨node, by rw [hleaves, grow_cons, hnode]⟩

theorem get?_of_grow (hgrow : grow (leavesUnder root ps) none = some node) :
    Assoc.get? root (Node.memberValues (Tree.ofParameters ps)) = some node.toJson := by
  rw [get?_memberValues, Tree.get?_ofParameters, hgrow]
  rfl

/-- Other names lead to nothing where all parameters have one root. -/
theorem get?_eq_none_of_ne (honly : ∀ p ∈ ps, p.path.root = root) {name : String}
    (hne : name ≠ root) : Assoc.get? name (Node.memberValues (Tree.ofParameters ps)) = none := by
  have hleaves : leavesUnder name ps = [] := by
    rw [leavesUnder, List.map_eq_nil_iff, List.filter_eq_nil_iff]
    intro p hp heq
    exact hne ((of_decide_eq_true heq).symm.trans (honly p hp))
  rw [get?_memberValues, Tree.get?_ofParameters, hleaves]
  rfl

end Root

/-- A conflict in a query string that compiles is merged, or a member of a group is displaced. -/
theorem merges_of_compileQueryString {base query root : String} {aliases : Option AliasMap}
    {q : Query} (hconflict : Conflict root (parameters query))
    (h : compileQueryString base query aliases = .ok q) :
    Merges root (leavesUnder root (parameters query)) ∨
      root = MemberKind.disjunctionKey ∧ Displaces (leavesUnder root (parameters query)) := by
  obtain ⟨node, hgrow⟩ := exists_grow_of_conflict hconflict
  obtain ⟨hflat, hfurther⟩ := hconflict
  have hvalue := get?_of_grow hgrow
  have hmem := Assoc.mem_of_get?_eq_some hvalue
  unfold compileQueryString compileDocument at h
  split at h
  · rename_i f hf
    obtain ⟨_, entries, hdocument, hentries, -, hpage⟩ := Filter.eq_of_ofJson hf
    cases hdocument
    obtain ⟨e, he⟩ := exists_of_mem_of_mapM_eq_ok hentries hmem
    rw [Entry.ofMember] at he
    cases hkind : MemberKind.ofKey root with
    | pagination =>
      obtain ⟨hlimit, hskip⟩ := Pagination.bounds_of_ofMembers hpage
      rcases MemberKind.eq_of_ofKey_pagination hkind with rfl | rfl | rfl
      · obtain ⟨s, hs⟩ := Pagination.exists_scalar_of_bound hlimit hvalue
        exact absurd (eq_leaf_of_toJson hs) (grow_ne_leaf hfurther hgrow s)
      · obtain ⟨s, hs⟩ := Pagination.exists_scalar_of_bound hskip hvalue
        exact absurd (eq_leaf_of_toJson hs) (grow_ne_leaf hfurther hgrow s)
      · exact .inl (.inl ⟨rfl, (exists_order_iff hfurther hgrow).mp
          (Pagination.exists_ofJson_of_ofMembers hpage hvalue)⟩)
    | disjunction =>
      rw [hkind] at he
      obtain ⟨group, hgroup, -⟩ := map_eq_ok.mp he
      obtain rfl := MemberKind.eq_of_ofKey_disjunction hkind
      exact .inr ⟨rfl, displaces_of_ofDisjunction hflat hfurther hgrow hgroup⟩
    | field =>
      rw [hkind] at he
      obtain ⟨c, hc, -⟩ := map_eq_ok.mp he
      exact .inl (.inr ((exists_comparisons_iff hfurther hgrow).mp ⟨c, hc⟩))
  · cases h

/-- A conflict that is not merged is rejected, whatever stands around it, unless a member of a group
is displaced. -/
theorem exists_error_of_conflict {base query root : String} {aliases : Option AliasMap}
    (h : Conflict root (parameters query))
    (hmerges : ¬ Merges root (leavesUnder root (parameters query)))
    (hkept : root = MemberKind.disjunctionKey →
      ¬ Displaces (leavesUnder root (parameters query))) :
    ∃ e, compileQueryString base query aliases = .error e := by
  cases hresult : compileQueryString base query aliases with
  | error e => exact ⟨e, rfl⟩
  | ok q =>
    rcases merges_of_compileQueryString h hresult with hmerged | ⟨hroot, hdisplaced⟩
    · exact absurd hmerged hmerges
    · exact absurd hdisplaced (hkept hroot)

theorem exists_error_of_conflict_in_list :
    Conflict "a" (parameters "a=1&a[$gt]=2") ∧
      ¬ Merges "a" (leavesUnder "a" (parameters "a=1&a[$gt]=2")) ∧
      ("a" = MemberKind.disjunctionKey →
        ¬ Displaces (leavesUnder "a" (parameters "a=1&a[$gt]=2"))) ∧
      ∃ e, compileQueryString "SELECT 1" "a=1&a[$gt]=2" none = .error e := by
  have hparameters : parameters "a=1&a[$gt]=2" =
      [⟨⟨"a", []⟩, .int 1⟩, ⟨⟨"a", [.key "$gt"]⟩, .int 2⟩] := by decide
  have hleaves : leavesUnder "a" (parameters "a=1&a[$gt]=2") =
      [([], .int 1), ([.key "$gt"], .int 2)] := by
    rw [hparameters]
    rfl
  have hconflict : Conflict "a" (parameters "a=1&a[$gt]=2") := by
    constructor
    · rw [hleaves]
      exact ⟨_, List.mem_cons_self, rfl⟩
    · rw [hleaves]
      decide
  have hmerges : ¬ Merges "a" (leavesUnder "a" (parameters "a=1&a[$gt]=2")) := by
    rw [hleaves]
    rintro (⟨hroot, -⟩ | ⟨-, h⟩)
    · exact absurd hroot (by decide)
    · exact absurd (h.first _ rfl) (by decide)
  have hkept : "a" = MemberKind.disjunctionKey →
      ¬ Displaces (leavesUnder "a" (parameters "a=1&a[$gt]=2")) :=
    fun hroot ↦ absurd hroot (by decide)
  exact ⟨hconflict, hmerges, hkept, exists_error_of_conflict hconflict hmerges hkept⟩

/-- A value that names a comparison is merged into comparisons that came before. -/
theorem not_forall_exists_error_of_conflict :
    ¬ ∀ (base query : String) (aliases : Option AliasMap) (root : String),
      (pairs query).length ≤ 1000 → Conflict root (parameters query) →
        ∃ e, compileQueryString base query aliases = .error e := by
  intro h
  have hparameters : parameters "a[$gt]=1&a=$lt" =
      [⟨⟨"a", [.key "$gt"]⟩, .int 1⟩, ⟨⟨"a", []⟩, .string "$lt"⟩] := by decide
  have hconflict : Conflict "a" (parameters "a[$gt]=1&a=$lt") := by
    rw [hparameters]
    exact ⟨⟨_, List.mem_cons_of_mem _ List.mem_cons_self, rfl⟩, by decide⟩
  obtain ⟨e, he⟩ := h "SELECT 1" "a[$gt]=1&a=$lt" none "a" (by decide) hconflict
  rw [compileQueryString, decode, hparameters] at he
  cases he

/-! ### What is merged compiles -/

section Merged

variable {root : String} {ps : List Parameter} {node : Node}

theorem exists_entry_of_merges (h : Conflict root ps)
    (hgrow : grow (leavesUnder root ps) none = some node)
    (hmerges : Merges root (leavesUnder root ps)) :
    ∃ e, Entry.ofMember (root, node.toJson) = .ok e := by
  rcases hmerges with ⟨rfl, -⟩ | ⟨hroot, hcomparisons⟩
  · exact ⟨none, rfl⟩
  · obtain ⟨c, hc⟩ := (exists_comparisons_iff h.further hgrow).mpr ⟨hroot, hcomparisons⟩
    refine ⟨some (.field c), ?_⟩
    rw [Entry.ofMember, MemberKind.ofKey_of_isIdentifier hroot]
    exact map_eq_ok.mpr ⟨c, hc, rfl⟩

theorem exists_page_of_merges (h : Conflict root ps) (honly : ∀ p ∈ ps, p.path.root = root)
    (hgrow : grow (leavesUnder root ps) none = some node)
    (hmerges : Merges root (leavesUnder root ps)) :
    ∃ p, Pagination.ofMembers (Node.memberValues (Tree.ofParameters ps)) = .ok p := by
  have hne {reserved : String} (hreserved : isIdentifier reserved = false)
      (hsort : reserved ≠ MemberKind.sortKey) : reserved ≠ root := by
    rintro rfl
    rcases hmerges with ⟨heq, -⟩ | ⟨hroot, -⟩
    · exact hsort heq
    · cases hreserved.symm.trans hroot
  have hbound {key : String} (hkey : key ≠ root) :
      Pagination.bound key (Node.memberValues (Tree.ofParameters ps)) = .ok none := by
    rw [Pagination.bound, get?_eq_none_of_ne honly hkey]
  refine Pagination.exists_ofMembers (hbound (hne (by decide) (by decide)))
    (hbound (hne (by decide) (by decide))) fun value hvalue ↦ ?_
  by_cases hroot : MemberKind.sortKey = root
  · subst hroot
    cases (get?_of_grow hgrow).symm.trans hvalue
    rcases hmerges with ⟨-, horder⟩ | ⟨hidentifier, -⟩
    · exact (exists_order_iff h.further hgrow).mpr horder
    · exact absurd hidentifier (by decide)
  · cases (get?_eq_none_of_ne honly hroot).symm.trans hvalue

end Merged

/-- A conflict that is merged compiles where nothing else stands around it. -/
theorem exists_ok_of_merges {base query root : String} {aliases : Option AliasMap}
    (h : Conflict root (parameters query)) (honly : ∀ p ∈ parameters query, p.path.root = root)
    (hmerges : Merges root (leavesUnder root (parameters query))) :
    ∃ q, compileQueryString base query aliases = .ok q := by
  obtain ⟨node, hgrow⟩ := exists_grow_of_conflict h
  obtain ⟨members, hdecode, hnodup, -⟩ := exists_decode_eq_object query
  cases hdecode
  have hentries : ∀ m ∈ Node.memberValues (Tree.ofParameters (parameters query)),
      ∃ e, Entry.ofMember m = .ok e := by
    rintro ⟨name, value⟩ hm
    have hfound := (Assoc.get?_eq_some_iff_mem hnodup).mpr hm
    by_cases hname : name = root
    · subst hname
      cases (get?_of_grow hgrow).symm.trans hfound
      exact exists_entry_of_merges h hgrow hmerges
    · cases (get?_eq_none_of_ne honly hname).symm.trans hfound
  obtain ⟨f, hf⟩ := Filter.exists_ofJson hentries (exists_page_of_merges h honly hgrow hmerges)
  have hfilter : Filter.ofJson (decode query) = .ok f := hf
  exact ⟨_, by rw [compileQueryString, compileDocument, hfilter]⟩

end RowFilter
