import Mathlib.Data.List.Induction
import RowFilter.AliasMap
import RowFilter.Proofs.Filter.Reading

/-!
Runs of changes of an alias map. A change sets the alias of one field or loads a whole map from a
document, and one that fails leaves the map as it was. Whether a change fails is decided by the
aliases that it brings and not by the map that it meets. What a field has after a run is what the
last successful change gave to it, where a load also takes the alias of every field that it does not
name (`run_keeps_last_alias`).
-/

set_option autoImplicit false

namespace RowFilter

theorem Identifier.text_ne_empty (i : Identifier) : i.text ≠ "" := by
  intro hempty
  have hvalid := i.valid
  rw [hempty] at hvalid
  exact absurd hvalid (by decide)

theorem toOption_eq_some_iff {ε α : Type} {x : Except ε α} {a : α} :
    x.toOption = some a ↔ x = .ok a := by
  cases x <;> simp [Except.toOption]

namespace AliasMap

/-- Whether a map takes a text as alias: the empty one or an identifier. -/
def isAlias (text : String) : Bool := text = "" || isIdentifier text

/-- The text of the alias of a field, empty if the column stays bare. -/
def written (m : AliasMap) (field : String) : String := (m.alias? field).elim "" Identifier.text

/-- Sets the aliases of fields in order; the first bad alias is the error. -/
def setAll (m : AliasMap) (pairs : List (String × String)) : Except AliasError AliasMap :=
  pairs.foldlM (fun m p ↦ m.set p.1 p.2) m

/-- A change of one field or of the whole map. -/
inductive Change where
  | set (field text : String)
  | load (document : Json)

namespace Change

/-- The map after the change, if the change succeeds. -/
def result? (m : AliasMap) : Change → Option AliasMap
  | .set field text => (m.set field text).toOption
  | .load document => ofJson? document

/-- The fields and aliases that a change brings. A document that is no object of texts is no map. -/
def pairs? : Change → Option (List (String × String))
  | .set field text => some [(field, text)]
  | .load (.object members) => members.mapM aliasText?
  | .load _ => none

/-- Whether all aliases that the change brings can be taken. -/
def succeeds (c : Change) : Bool := c.pairs?.any fun pairs ↦ pairs.all fun p ↦ isAlias p.2

/-- The map that the aliases of the change are added to. -/
def start (m : AliasMap) : Change → AliasMap
  | .set _ _ => m
  | .load _ => empty

/-- The alias that the change gives to a field, unless it leaves the field as it is. A load leaves
no field as it is: one that it does not name gets the empty alias. -/
def gives? (field : String) : Change → Option String
  | .set name text => if field = name then some text else none
  | .load document =>
    some (((SortedMap.ofMembers ((load document).pairs?.getD [])).get? field).getD "")

end Change

/-- The map after some changes of the empty map. A change that fails leaves the map as it was. -/
def run (changes : List Change) : AliasMap :=
  changes.foldl (fun m c ↦ (c.result? m).getD m) empty

/-- The alias that a field was given last by a successful change, empty if it was given none. -/
def lastGiven (field : String) (changes : List Change) : String :=
  ((changes.filter Change.succeeds).filterMap (Change.gives? field)).getLast?.getD ""

variable {m m' : AliasMap} {field text : String}

/-! ### Aliases -/

theorem elim_of_readAlias {a : Option Identifier} (h : readAlias text = .ok a) :
    a.elim "" Identifier.text = text := by
  unfold readAlias at h
  by_cases hempty : text = ""
  · rw [if_pos hempty] at h
    cases h
    exact hempty.symm
  · rw [if_neg hempty] at h
    cases hread : Identifier.ofString? text with
    | none =>
      rw [hread] at h
      cases h
    | some i =>
      rw [hread] at h
      cases h
      exact Identifier.ofString?_eq_some_iff.mp hread

theorem exists_readAlias_iff : (∃ a, readAlias text = .ok a) ↔ isAlias text = true := by
  unfold readAlias isAlias
  by_cases hempty : text = ""
  · simp [hempty]
  · rw [if_neg hempty, decide_eq_false hempty, Bool.false_or]
    cases hread : Identifier.ofString? text with
    | none => simp [Identifier.ofString?_eq_none_iff.mp hread]
    | some i =>
      have hvalid : isIdentifier text = true := Identifier.ofString?_eq_some_iff.mp hread ▸ i.valid
      simp [hvalid]

theorem map_text_alias? (m : AliasMap) (field : String) :
    (m.alias? field).map Identifier.text =
      if m.written field = "" then none else some (m.written field) := by
  unfold written
  cases m.alias? field with
  | none => rfl
  | some i => exact (if_neg i.text_ne_empty).symm

theorem qualify_eq (m : AliasMap) (field : String) :
    m.qualify field =
      if m.written field = "" then field else m.written field ++ "." ++ field := by
  unfold qualify written
  cases m.alias? field with
  | none => rfl
  | some i => exact (if_neg i.text_ne_empty).symm

/-- Whatever a map holds is the empty alias or an identifier, by the type of its entries. -/
theorem isAlias_of_mem_toPairs {p : String × String} (h : p ∈ m.toPairs) :
    p.2 = "" ∨ isIdentifier p.2 = true := by
  obtain ⟨⟨name, a⟩, -, rfl⟩ := List.mem_map.mp h
  cases a with
  | none => exact .inl rfl
  | some i => exact .inr i.valid

/-! ### Changes -/

theorem exists_set_iff : (∃ m', m.set field text = .ok m') ↔ isAlias text = true := by
  rw [← exists_readAlias_iff]
  simp only [set, map_eq_ok]
  constructor
  · rintro ⟨-, a, ha, -⟩
    exact ⟨a, ha⟩
  · rintro ⟨a, ha⟩
    exact ⟨_, a, ha, rfl⟩

theorem written_of_set (h : m.set field text = .ok m') (other : String) :
    m'.written other = if other = field then text else m.written other := by
  obtain ⟨a, ha, rfl⟩ := map_eq_ok.mp h
  unfold written alias?
  by_cases hother : other = field
  · rw [if_pos hother, hother, SortedMap.get?_insert_self, Option.join_some, elim_of_readAlias ha]
  · rw [if_neg hother, SortedMap.get?_insert_of_ne _ hother]

theorem exists_setAll_iff {pairs : List (String × String)} :
    (∃ m', m.setAll pairs = .ok m') ↔ ∀ p ∈ pairs, isAlias p.2 = true := by
  induction pairs generalizing m with
  | nil => exact iff_of_true ⟨m, rfl⟩ (List.forall_mem_nil _)
  | cons p rest ih =>
    simp only [setAll, List.foldlM_cons, bind_eq_ok, List.forall_mem_cons]
    constructor
    · rintro ⟨m', middle, hset, hrest⟩
      exact ⟨exists_set_iff.mp ⟨middle, hset⟩, ih.mp ⟨m', hrest⟩⟩
    · rintro ⟨hp, hrest⟩
      obtain ⟨middle, hset⟩ := exists_set_iff.mpr hp
      obtain ⟨m', hrest⟩ := ih.mpr hrest
      exact ⟨m', middle, hset, hrest⟩

/-- Setting aliases writes what inserting their texts would write into a map of texts. -/
theorem written_of_setAll {pairs : List (String × String)} {texts : SortedMap String}
    (h : m.setAll pairs = .ok m')
    (htexts : ∀ field, m.written field = (texts.get? field).getD "") (field : String) :
    m'.written field =
      ((pairs.foldl (fun texts p ↦ texts.insert p.1 p.2) texts).get? field).getD "" := by
  induction pairs generalizing m texts with
  | nil =>
    cases h
    exact htexts field
  | cons p rest ih =>
    obtain ⟨middle, hset, hrest⟩ := bind_eq_ok.mp h
    refine ih hrest fun other ↦ ?_
    rw [written_of_set hset]
    by_cases hother : other = p.1
    · rw [if_pos hother, hother, SortedMap.get?_insert_self, Option.getD_some]
    · rw [if_neg hother, SortedMap.get?_insert_of_ne _ hother, htexts]

theorem aliasText?_eq_some_iff (member : String × Json) (p : String × String) :
    aliasText? member = some p ↔ member = (p.1, .string p.2) := by
  obtain ⟨name, value⟩ := member
  constructor
  · intro h
    unfold aliasText? at h
    split at h
    · rename_i s hvalue
      cases h
      exact congrArg (Prod.mk name) hvalue
    · cases h
  · rintro ⟨⟩
    rfl

namespace Change

variable {c : Change}

/-- An object of texts brings its members, each name with its text and in their order. No other
document brings anything. -/
theorem pairs?_load_eq_some_iff {document : Json} {pairs : List (String × String)} :
    (load document).pairs? = some pairs ↔
      document = .object (pairs.map fun p ↦ (p.1, .string p.2)) := by
  cases document with
  | object members =>
    rw [Json.object.injEq]
    exact mapM_eq_some_iff aliasText?_eq_some_iff
  | scalar s => exact iff_of_false nofun nofun
  | array items => exact iff_of_false nofun nofun

theorem result?_eq_some_iff :
    c.result? m = some m' ↔
      ∃ pairs, c.pairs? = some pairs ∧ (c.start m).setAll pairs = .ok m' := by
  cases c with
  | set field text =>
    have hone : m.setAll [(field, text)] = m.set field text := by
      show (m.set field text >>= pure) = _
      exact bind_pure _
    simp only [result?, toOption_eq_some_iff, pairs?, start, Option.some.injEq, exists_eq_left',
      hone]
  | load document =>
    have hread : ofJson? document =
        (load document).pairs?.bind fun pairs ↦ (ofPairs pairs).toOption := by
      cases document <;> rfl
    simp only [result?, hread, Option.bind_eq_some_iff, toOption_eq_some_iff]
    rfl

theorem exists_result?_iff : (∃ m', c.result? m = some m') ↔ c.succeeds = true := by
  simp only [result?_eq_some_iff, succeeds, Option.any_eq_true, List.all_eq_true]
  rw [exists_comm]
  simp only [exists_and_left, exists_setAll_iff]

theorem result?_eq_none_iff : c.result? m = none ↔ c.succeeds = false := by
  rw [← Bool.not_eq_true, ← exists_result?_iff (m := m), ← Option.isSome_iff_exists]
  simp

theorem written_of_result? (h : c.result? m = some m') (field : String) :
    m'.written field = (c.gives? field).getD (m.written field) := by
  cases c with
  | set name text =>
    rw [written_of_set (toOption_eq_some_iff.mp h), gives?]
    by_cases hfield : field = name <;> simp [hfield]
  | load document =>
    obtain ⟨pairs, hpairs, hset⟩ := result?_eq_some_iff.mp h
    have hempty (field : String) :
        empty.written field = ((SortedMap.empty : SortedMap String).get? field).getD "" := rfl
    rw [written_of_setAll hset hempty, gives?, hpairs]
    rfl

end Change

/-! ### Runs -/

theorem run_append_singleton (changes : List Change) (c : Change) :
    run (changes ++ [c]) = (c.result? (run changes)).getD (run changes) := List.foldl_append

theorem lastGiven_append_singleton (field : String) (changes : List Change) (c : Change) :
    lastGiven field (changes ++ [c]) =
      if c.succeeds then (c.gives? field).getD (lastGiven field changes)
      else lastGiven field changes := by
  unfold lastGiven
  by_cases hsucceeds : c.succeeds = true
  · rw [if_pos hsucceeds, List.filter_append, List.filterMap_append]
    cases hgives : c.gives? field <;> simp [hsucceeds, hgives]
  · rw [if_neg hsucceeds, List.filter_append]
    simp [hsucceeds]

theorem written_run (changes : List Change) (field : String) :
    (run changes).written field = lastGiven field changes := by
  induction changes using List.reverseRecOn with
  | nil => rfl
  | append_singleton changes c ih =>
    rw [run_append_singleton, lastGiven_append_singleton, ← ih]
    cases hresult : c.result? (run changes) with
    | none =>
      rw [Change.result?_eq_none_iff.mp hresult, Option.getD_none]
      rfl
    | some m' =>
      rw [Change.exists_result?_iff.mp ⟨m', hresult⟩, Option.getD_some,
        Change.written_of_result? hresult]
      rfl

/-- After a run every alias is empty or an identifier. A change that brings a map fails exactly when
some alias of it is neither, whatever map it meets. The alias of a field is the one that it was
given last by a successful change; where this is empty or was never given, the column is bare. -/
theorem run_keeps_last_alias (changes : List Change) :
    (∀ p ∈ (run changes).toPairs, p.2 = "" ∨ isIdentifier p.2 = true) ∧
      (∀ (m : AliasMap) (c : Change),
        (∀ pairs, c.pairs? = some pairs →
          (c.result? m = none ↔ ∃ p ∈ pairs, p.2 ≠ "" ∧ isIdentifier p.2 = false)) ∧
        (c.pairs? = none → c.result? m = none)) ∧
      ∀ field,
        ((run changes).alias? field).map Identifier.text =
          (if lastGiven field changes = "" then none else some (lastGiven field changes)) ∧
        (run changes).qualify field =
          if lastGiven field changes = "" then field
          else lastGiven field changes ++ "." ++ field := by
  refine ⟨fun p ↦ isAlias_of_mem_toPairs, fun m c ↦ ⟨fun pairs hpairs ↦ ?_, fun hpairs ↦ ?_⟩,
    fun field ↦ ⟨?_, ?_⟩⟩
  · rw [Change.result?_eq_none_iff, Change.succeeds, hpairs, Option.any_some, List.all_eq_false]
    simp only [isAlias, Bool.or_eq_true, decide_eq_true_eq, not_or, Bool.not_eq_true]
  · rw [Change.result?_eq_none_iff, Change.succeeds, hpairs, Option.any_none]
  · rw [map_text_alias?, written_run]
  · rw [qualify_eq, written_run]

/-- A load with one bad alias is refused as a whole, and a good one takes all other aliases away. -/
example : (run [.set "a" "t", .load (.object [("b", .string "u"), ("a", .string "")]),
    .load (.object [("b", .string "v"), ("c", .string "?")]), .set "b" "w x"]).toPairs =
      [("a", ""), ("b", "u")] := by decide

end AliasMap

end RowFilter
