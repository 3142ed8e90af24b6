import Mathlib.Data.List.Perm.Basic
import Mathlib.Data.Set.List
import RowFilter.Proofs.QueryString.Order
import RowFilter.Proofs.QueryString.Repetition

/-!
Values under single segments of one root. Different segments do not stand in each other's way, so
what their values grow into holds these values and nothing else (`Represents`), however they came
and whenever a list had to become an object. All segments together decide what the value of the root
is: a list in the order of the indices if every one of them writes an index, and an object with
every segment as it is written otherwise (`member?_decode_of_segments`).
-/

set_option autoImplicit false

namespace RowFilter.QueryString

open Assoc (Ascending)

/-- Values under segments, as leaves below their root. -/
def segmentLeaves (parts : List (String × Scalar)) : List Leaf :=
  parts.map fun e ↦ ([Step.ofSegment e.1], e.2)

section Parts

variable {parts : List (String × Scalar)}

theorem append_notMem_segmentLeaves (hne : ∀ e ∈ parts, e.1 ≠ "") :
    ∀ leaf ∈ segmentLeaves parts, .append ∉ leaf.1 := by
  refine List.forall_mem_map.mpr fun e he hmem ↦ hne e he ?_
  rw [← Step.text_ofSegment e.1, ← List.mem_singleton.mp hmem]
  rfl

theorem pairwise_apart_segmentLeaves (hnodup : (parts.map Prod.fst).Nodup) :
    (segmentLeaves parts).Pairwise Leaf.Apart := by
  refine List.pairwise_map.mpr ((List.pairwise_map.mp hnodup).imp fun {e d} hne ↦ ?_)
  simpa [Leaf.Apart, Leaf.texts, Step.text_ofSegment] using ⟨hne, Ne.symm hne⟩

/-- Below a name there is the value of the segment of this name. -/
theorem within_segmentLeaves (hnodup : (parts.map Prod.fst).Nodup) (name : String) :
    Leaf.within name (segmentLeaves parts) =
      (Assoc.get? name parts).toList.map fun value ↦ ([], value) := by
  induction parts with
  | nil => rfl
  | cons e rest ih =>
    obtain ⟨hfirst, hrest⟩ := List.nodup_cons.mp hnodup
    rw [Leaf.within] at ih
    rw [segmentLeaves, List.map_cons, Leaf.within, List.filterMap_cons, Leaf.within?,
      Step.text_ofSegment, ← segmentLeaves, ih hrest, Assoc.get?]
    by_cases hname : e.1 = name
    · subst hname
      rw [if_pos rfl, if_pos rfl, Assoc.get?_eq_none_of_notMem hfirst]
      rfl
    · rw [if_neg hname, if_neg hname]

/-- What represents at most one bare value is that value. -/
theorem Represents.eq_leaf {value? : Option Scalar} {place : Option Node}
    (h : Represents (value?.toList.map fun value ↦ ([], value)) place) :
    place = value?.map .leaf := by
  cases value? with
  | none =>
    cases h with
    | none => rfl
    | slots ne_nil _ _ _ => exact absurd rfl ne_nil
    | members _ _ key _ =>
      obtain ⟨_, hmem, -⟩ := key
      cases hmem
  | some value =>
    cases h with
    | leaf _ => rfl
    | slots _ _ indices _ =>
      obtain ⟨_, _, hsteps⟩ := indices _ (List.mem_singleton_self _)
      cases hsteps
    | members _ deep _ _ => exact absurd rfl (deep _ (List.mem_singleton_self _))

/-- Entries that represent the values of segments are these segments with these values. -/
theorem perm_of_represents (hparts : (parts.map Prod.fst).Nodup)
    {entries : List (String × Node)} (hentries : (entries.map Prod.fst).Nodup)
    (h : ∀ name, Represents (Leaf.within name (segmentLeaves parts)) (Assoc.get? name entries)) :
    entries.Perm (parts.map fun e ↦ (e.1, .leaf e.2)) := by
  refine Assoc.perm_of_get?_eq hentries (by rwa [List.map_map]) fun name ↦ ?_
  have hname := h name
  rw [within_segmentLeaves hparts] at hname
  rw [hname.eq_leaf, Assoc.get?_map_values]

/-- Slots that are the values of segments by the names of their indices. -/
theorem exists_numbered {items : List (Nat × Node)}
    (h : (namedSlots items).Perm (parts.map fun e ↦ (e.1, .leaf e.2))) :
    ∃ numbered : List (Nat × Scalar), items = numbered.map (fun e ↦ (e.1, .leaf e.2)) ∧
      (numbered.map fun e ↦ (toString e.1, e.2)).Perm parts := by
  have hleaf : ∀ e ∈ items, e ∈ Set.range fun d : Nat × Scalar ↦ (d.1, Node.leaf d.2) := by
    intro e he
    have hmem : (toString e.1, e.2) ∈ namedSlots items := List.mem_map_of_mem he
    obtain ⟨d, -, hd⟩ := List.mem_map.mp (h.mem_iff.mp hmem)
    exact ⟨(e.1, d.2), Prod.ext rfl (Prod.mk.inj hd).2⟩
  obtain ⟨numbered, rfl⟩ :
      items ∈ Set.range (List.map fun d : Nat × Scalar ↦ (d.1, .leaf d.2)) := by
    rw [Set.range_list_map]
    exact hleaf
  refine ⟨numbered, rfl, ?_⟩
  have hinjective : Function.Injective fun d : String × Scalar ↦ (d.1, Node.leaf d.2) := by
    rintro ⟨name, value⟩ ⟨name', value'⟩ heq
    cases heq
    rfl
  rw [← List.map_perm_map_iff hinjective, List.map_map]
  rwa [namedSlots, List.map_map] at h

/-- Values under distinct segments stand in slots if every segment writes an index, and are members
otherwise. -/
theorem cases_of_represents (hne : parts ≠ []) (hnodup : (parts.map Prod.fst).Nodup)
    {place : Option Node} (h : Represents (segmentLeaves parts) place) :
    (∃ numbered : List (Nat × Scalar), (∀ e ∈ parts, ∃ i ≤ 20, e.1 = toString i) ∧
        Ascending numbered ∧ (numbered.map fun e ↦ (toString e.1, e.2)).Perm parts ∧
        place = some (.slots (numbered.map fun e ↦ (e.1, .leaf e.2)))) ∨
      ∃ items : List (String × Node), (¬ ∀ e ∈ parts, ∃ i ≤ 20, e.1 = toString i) ∧
        items.Perm (parts.map fun e ↦ (e.1, .leaf e.2)) ∧ place = some (.members items) := by
  generalize hleaves : segmentLeaves parts = leaves at h
  cases h with
  | none => exact absurd (List.map_eq_nil_iff.mp hleaves) hne
  | leaf value =>
    obtain ⟨e, -, heq⟩ := List.map_eq_singleton_iff.mp hleaves
    cases heq
  | slots _ ascending indices children =>
    subst hleaves
    obtain ⟨numbered, rfl, hperm⟩ :=
      exists_numbered (perm_of_represents hnodup (nodup_namedSlots ascending) children)
    rw [Ascending, List.pairwise_map] at ascending
    refine .inl ⟨numbered, fun e he ↦ ?_, ascending, hperm, rfl⟩
    obtain ⟨i, rest, hi⟩ := indices _ (List.mem_map_of_mem he)
    exact Step.exists_ofSegment_eq_index_iff.mp ⟨i, (List.cons.inj hi).1⟩
  | members nodup _ key children =>
    subst hleaves
    refine .inr ⟨_, fun hall ↦ ?_, perm_of_represents hnodup nodup children, rfl⟩
    obtain ⟨leaf, hleaf, name, rest, hname⟩ := key
    obtain ⟨e, he, rfl⟩ := List.mem_map.mp hleaf
    obtain ⟨i, hi⟩ := Step.exists_ofSegment_eq_index_iff.mpr (hall e he)
    cases hi.symm.trans (List.cons.inj hname).1

end Parts

/-! ### Decoding -/

theorem ofName_segment {root segment : String} (hne : root ≠ "") (hbracket : '[' ∉ root.toList)
    (hopening : '[' ∉ segment.toList) (hclosing : ']' ∉ segment.toList) :
    Path.ofName (root ++ "[" ++ segment ++ "]") = ⟨root, [Step.ofSegment segment]⟩ := by
  have hplain : Path.Plain ⟨root, [Step.ofSegment segment]⟩ :=
    ⟨hne, hbracket, by simp, List.forall_mem_singleton.mpr (Step.plain_ofSegment hopening hclosing)⟩
  have htext : Path.text ⟨root, [Step.ofSegment segment]⟩ = root ++ "[" ++ segment ++ "]" := by
    rw [Path.text, ← String.toList_inj]
    simp [bracketed, Step.text_ofSegment]
  rw [← htext, Path.ofName_text hplain]

/-- If those of the first thousand pairs that give the root a value give values to distinct single
segments, the value of the root is decided by all of them together, in whatever order they came. It
is the list of the values in the order of the indices if every segment writes an index, and the
object with the segments as names otherwise. -/
theorem member?_decode_of_segments {query root : String} (hne : root ≠ "")
    (hbracket : '[' ∉ root.toList) {parts : List (String × Scalar)} (hsome : parts ≠ [])
    (hsegments : ∀ e ∈ parts, e.1 ≠ "" ∧ '[' ∉ e.1.toList ∧ ']' ∉ e.1.toList)
    (hdistinct : (parts.map Prod.fst).Nodup)
    (hreceived : received root ((pairs query).take 1000) =
      parts.map fun e ↦ (root ++ "[" ++ e.1 ++ "]", e.2)) :
    ((∀ e ∈ parts, ∃ i ≤ 20, e.1 = toString i) → ∃ numbered : List (Nat × Scalar),
        numbered.Pairwise (fun d e ↦ d.1 < e.1) ∧
          (numbered.map fun e ↦ (toString e.1, e.2)).Perm parts ∧
          (decode query).member? root = some (.array (numbered.map fun e ↦ .scalar e.2))) ∧
      ((¬ ∀ e ∈ parts, ∃ i ≤ 20, e.1 = toString i) → ∃ members : List (String × Json),
        members.Perm (parts.map fun e ↦ (e.1, .scalar e.2)) ∧
          (decode query).member? root = some (.object members)) := by
  have hleaves : leavesUnder root (parameters query) = segmentLeaves parts := by
    rw [leavesUnder_parameters_take, hreceived, List.map_map, segmentLeaves]
    refine List.map_congr_left fun e he ↦ ?_
    obtain ⟨-, hopening, hclosing⟩ := hsegments e he
    rw [Function.comp_apply, ofName_segment hne hbracket hopening hclosing]
  have hrepresents := represents_grow
    (append_notMem_segmentLeaves fun e he ↦ (hsegments e he).1)
    (pairwise_apart_segmentLeaves hdistinct)
  rw [member?_decode, hleaves]
  rcases cases_of_represents hsome hdistinct hrepresents with
    ⟨numbered, hall, hascending, hperm, hplace⟩ | ⟨items, hnot, hperm, hplace⟩
  · refine ⟨fun _ ↦ ⟨numbered, hascending, hperm, ?_⟩, fun hnot ↦ absurd hall hnot⟩
    rw [hplace, Option.map_some, Node.toJson, slotValues_eq_map, List.map_map]
    rfl
  · refine ⟨fun hall ↦ absurd hall hnot, fun _ ↦ ⟨Node.memberValues items, ?_, ?_⟩⟩
    · have hvalues := hperm.map fun e ↦ (e.1, e.2.toJson)
      rwa [← memberValues_eq_map, List.map_map] at hvalues
    · rw [hplace]
      rfl

theorem member?_decode_of_segments_with_gaps_and_padding :
    (∃ numbered : List (Nat × Scalar), numbered.Pairwise (fun d e ↦ d.1 < e.1) ∧
        (numbered.map fun e ↦ (toString e.1, e.2)).Perm [("20", .string "x"), ("3", .int 1)] ∧
        (decode "a[20]=x&b=2&a[3]=1").member? "a" =
          some (.array (numbered.map fun e ↦ .scalar e.2))) ∧
      ∃ members : List (String × Json),
        members.Perm [("3", .string "x"), ("03", .string "y"), ("21", .bool true)] ∧
          (decode "a[3]=x&a[03]=y&a=undefined&a[21]=true").member? "a" = some (.object members) := by
  have hindices : received "a" ((pairs "a[20]=x&b=2&a[3]=1").take 1000) =
      [("a[20]", .string "x"), ("a[3]", .int 1)] := by decide +kernel
  have hmixed : received "a" ((pairs "a[3]=x&a[03]=y&a=undefined&a[21]=true").take 1000) =
      [("a[3]", .string "x"), ("a[03]", .string "y"), ("a[21]", .bool true)] := by decide +kernel
  constructor
  · have hsegments : ∀ e ∈ [("20", Scalar.string "x"), ("3", .int 1)],
        e.1 ≠ "" ∧ '[' ∉ e.1.toList ∧ ']' ∉ e.1.toList := by decide
    refine (member?_decode_of_segments (by decide) (by decide) (by decide)
      hsegments (by decide) hindices).1 ?_
    simp only [List.forall_mem_cons]
    exact ⟨⟨20, by decide⟩, ⟨3, by decide⟩, List.forall_mem_nil _⟩
  · have hsegments : ∀ e ∈ [("3", Scalar.string "x"), ("03", .string "y"), ("21", .bool true)],
        e.1 ≠ "" ∧ '[' ∉ e.1.toList ∧ ']' ∉ e.1.toList := by decide
    refine (member?_decode_of_segments (by decide) (by decide) (by decide)
      hsegments (by decide) hmixed).2 fun hall ↦ ?_
    obtain ⟨i, hi, heq⟩ := hall ("21", .bool true) (by decide)
    exact absurd heq ((by decide : ∀ i ≤ 20, "21" ≠ toString i) i hi)

end RowFilter.QueryString
