import Mathlib.Data.List.Forall2
import Mathlib.Data.List.TakeWhile
import RowFilter.Proofs.QueryString.Path

/-!
How a name is cut into the steps of its path. A name has one decomposition into the text before its
first bracket, up to five bracketed segments, and a rest that begins with no segment unless five
stand before it. The steps of the path are these parts one behind another: the first is a plain
name, each further segment says by its text whether it appends, is an index or is a key, and the
rest is one key. So nothing is lost but the brackets of the segments (`ofName_decomposition`).
-/

set_option autoImplicit false

namespace RowFilter.QueryString

namespace Path

/-- The steps of a path with the one to its root in front. -/
def toSteps (path : Path) : List Step := .key path.root :: path.steps

/-- The parts of a name: the text before its brackets, segments, and what is left. -/
@[ext]
structure Parts where
  root : List Char
  inner : List String
  rest : List Char

namespace Parts

/-- The parts make up the name, and no further segment could be read of what is left. -/
structure Decomposes (parts : Parts) (name : String) : Prop where
  whole : name.toList = parts.root ++ inBrackets parts.inner ++ parts.rest
  root_eq : parts.root = name.toList.takeWhile (· != '[')
  inner_unbracketed : ∀ segment ∈ parts.inner, ∀ c ∈ segment.toList, isBracket c = false
  length_le : parts.inner.length ≤ 5
  maximal : parts.rest = [] ∨ parts.inner.length = 5 ∨
    ¬ ∃ inside behind, (∀ c ∈ inside, isBracket c = false) ∧
      parts.rest = '[' :: inside ++ ']' :: behind

/-- The root, unless it is empty, and the segments. -/
def names (parts : Parts) : List String :=
  (if parts.root = [] then [] else [String.ofList parts.root]) ++ parts.inner

end Parts

end Path

/-! ### Segments -/

theorem Step.forall₂_reads (inner : List String) :
    List.Forall₂ Reads inner (inner.map ofSegment) := by
  induction inner with
  | nil => exact .nil
  | cons segment rest ih => exact .cons (reads_ofSegment segment) ih

theorem segment?_eq_some_iff {text inside rest : List Char} :
    segment? text = some (inside, rest) ↔
      (∀ c ∈ inside, isBracket c = false) ∧ text = '[' :: inside ++ ']' :: rest := by
  constructor
  · intro h
    refine ⟨fun c hc ↦ ?_, eq_of_segment? h⟩
    unfold segment? at h
    split at h
    · split at h
      · cases h
        simpa using List.mem_takeWhile_imp hc
      · cases h
    · cases h
  · rintro ⟨hinside, rfl⟩
    exact segment?_bracketed hinside rest

theorem segment?_eq_none_iff {text : List Char} :
    segment? text = none ↔ ¬ ∃ inside rest, (∀ c ∈ inside, isBracket c = false) ∧
      text = '[' :: inside ++ ']' :: rest := by
  simp only [← segment?_eq_some_iff, Option.eq_none_iff_forall_ne_some, Prod.forall, not_exists]

/-- What is read up to a bound, and what is left of the text. -/
theorem spec_of_segments {bound : Nat} {text rest : List Char} {inner : List String}
    (h : segments bound text = (inner, rest)) :
    text = inBrackets inner ++ rest ∧ inner.length ≤ bound ∧
      (∀ segment ∈ inner, ∀ c ∈ segment.toList, isBracket c = false) ∧
      (inner.length = bound ∨ segment? rest = none) := by
  induction bound generalizing text inner with
  | zero =>
    cases h
    exact ⟨rfl, Nat.le_refl 0, List.forall_mem_nil _, .inl rfl⟩
  | succ bound ih =>
    unfold segments at h
    cases hcut : segment? text with
    | none =>
      rw [hcut] at h
      cases h
      exact ⟨rfl, Nat.zero_le _, List.forall_mem_nil _, .inr hcut⟩
    | some cut =>
      obtain ⟨inside, behind⟩ := cut
      rw [hcut] at h
      cases h
      obtain ⟨hinside, rfl⟩ := segment?_eq_some_iff.mp hcut
      obtain ⟨hwhole, hlength, hmore, hend⟩ := @ih behind _ rfl
      refine ⟨?_, Nat.succ_le_succ hlength, ?_, hend.imp_left (congrArg Nat.succ)⟩
      · simp only [inBrackets_cons, String.toList_ofList, List.append_assoc, List.cons_append,
          ← hwhole]
      · refine List.forall_mem_cons.mpr ⟨?_, hmore⟩
        rwa [String.toList_ofList]

/-! ### Names -/

namespace Path

variable {name : String} {parts : Parts}

theorem decomposes_iff :
    parts.Decomposes name ↔ parts.root = name.toList.takeWhile (· != '[') ∧
      segments maxSegments (name.toList.dropWhile (· != '[')) = (parts.inner, parts.rest) := by
  constructor
  · intro h
    refine ⟨h.root_eq, ?_⟩
    have hwhole := h.whole
    rw [← List.takeWhile_append_dropWhile (p := (· != '[')) (l := name.toList), ← h.root_eq,
      List.append_assoc] at hwhole
    rw [List.append_cancel_left hwhole]
    refine segments_inBrackets_append h.length_le h.inner_unbracketed ?_
    rcases h.maximal with hrest | hlength | hnone
    · rw [hrest]
      exact .inr rfl
    · exact .inl hlength
    · exact .inr (segment?_eq_none_iff.mpr hnone)
  · rintro ⟨hroot, hread⟩
    obtain ⟨hwhole, hlength, hinner, hend⟩ := spec_of_segments hread
    refine ⟨?_, hroot, hinner, hlength, .inr (hend.imp_right segment?_eq_none_iff.mp)⟩
    rw [hroot, List.append_assoc, ← hwhole, List.takeWhile_append_dropWhile]

theorem exists_decomposes (name : String) : ∃ parts : Parts, parts.Decomposes name :=
  ⟨⟨_, _, _⟩, decomposes_iff.mpr ⟨rfl, rfl⟩⟩

theorem Parts.Decomposes.unique {other : Parts} (h : parts.Decomposes name)
    (hother : other.Decomposes name) : other = parts := by
  obtain ⟨hroot, hread⟩ := decomposes_iff.mp h
  obtain ⟨hroot', hread'⟩ := decomposes_iff.mp hother
  obtain ⟨hinner, hrest⟩ := Prod.mk.inj (hread'.symm.trans hread)
  exact Parts.ext (hroot'.trans hroot.symm) hinner hrest

theorem toSteps_ofName_of_nil (h : parts.Decomposes name) (hinner : parts.inner = []) :
    (ofName name).toSteps = [.key name] := by
  have hread := (decomposes_iff.mp h).2
  rw [hinner] at hread
  simp only [ofName, hread]
  rfl

/-- A name with segments begins with its root, or with the first segment if there is no root. -/
theorem exists_toSteps_ofName (h : parts.Decomposes name) (hinner : parts.inner ≠ []) :
    ∃ first more, parts.names = first :: more ∧ (ofName name).toSteps =
      .key first :: more.map Step.ofSegment ++
        if parts.rest = [] then [] else [.key (String.ofList parts.rest)] := by
  obtain ⟨hroot, hread⟩ := decomposes_iff.mp h
  obtain ⟨segment, more, hcons⟩ := List.exists_cons_of_ne_nil hinner
  unfold ofName
  rw [← hroot, hread, hcons, Parts.names, hcons]
  by_cases hempty : parts.root = []
  · rw [hempty, if_pos rfl]
    refine ⟨segment, more, rfl, ?_⟩
    simp [toSteps, tailSteps]
  · obtain ⟨c, cs, hchars⟩ := List.exists_cons_of_ne_nil hempty
    rw [if_neg hempty, hchars]
    exact ⟨String.ofList (c :: cs), segment :: more, rfl, by simp [toSteps, tailSteps]⟩

/-- Without a bracket the name is its own root, and nothing stands behind it. -/
theorem decomposes_of_notMem (h : '[' ∉ name.toList) :
    Parts.Decomposes ⟨name.toList, [], []⟩ name := by
  have hall : ∀ c ∈ name.toList, (c != '[') = true := fun c hc ↦
    bne_iff_ne.mpr fun heq ↦ h (heq ▸ hc)
  refine decomposes_iff.mpr ⟨(List.takeWhile_eq_self_iff.mpr hall).symm, ?_⟩
  rw [List.dropWhile_eq_nil_iff.mpr hall]
  rfl

/-- The characters of the steps are those of the root, the segments and the rest, in this order. -/
theorem flatMap_text_toSteps (h : parts.Decomposes name) :
    ((ofName name).toSteps.flatMap fun step ↦ step.text.toList) =
      parts.root ++ parts.inner.flatMap String.toList ++ parts.rest := by
  by_cases hinner : parts.inner = []
  · have hwhole := h.whole
    rw [hinner] at hwhole ⊢
    rw [toSteps_ofName_of_nil h hinner, List.flatMap_singleton]
    exact hwhole
  · obtain ⟨first, more, hnames, hsteps⟩ := exists_toSteps_ofName h hinner
    have hfirst : parts.root ++ parts.inner.flatMap String.toList =
        first.toList ++ more.flatMap String.toList := by
      rw [← List.flatMap_cons, ← hnames, Parts.names, List.flatMap_append]
      by_cases hempty : parts.root = [] <;> simp [hempty]
    have hmore : ((more.map Step.ofSegment).flatMap fun step ↦ step.text.toList) =
        more.flatMap String.toList := by
      rw [List.flatMap_map]
      exact List.flatMap_congr fun segment _ ↦ congrArg _ (Step.text_ofSegment segment)
    rw [hsteps, hfirst, List.flatMap_append, List.flatMap_cons, hmore]
    by_cases hrest : parts.rest = [] <;> simp [hrest, Step.text]

/-- A name that is not empty has one decomposition into the text before its first bracket, at most
five segments without brackets inside, and a rest that is empty, stands behind five segments or does
not begin with another one. A name with brackets but without segments is one step as a whole. Any
other name is the root, if it is not empty, then the segments, of all of which the first is a plain
name and the others say by their texts what they are, and then the rest, if there is one. The steps
hold all characters of the name but the brackets of the segments, in their order. -/
theorem ofName_decomposition (hname : name ≠ "") :
    ∃ parts : Parts, parts.Decomposes name ∧
      (∀ other : Parts, other.Decomposes name → other = parts) ∧
      ('[' ∈ name.toList → parts.inner = [] → (ofName name).toSteps = [.key name]) ∧
      ('[' ∉ name.toList ∨ parts.inner ≠ [] → ∃ first more steps, parts.names = first :: more ∧
        List.Forall₂ Step.Reads more steps ∧ (ofName name).toSteps =
          .key first :: steps ++ if parts.rest = [] then [] else [.key (String.ofList parts.rest)]) ∧
      ((ofName name).toSteps.flatMap fun step ↦ step.text.toList) =
        parts.root ++ parts.inner.flatMap String.toList ++ parts.rest := by
  obtain ⟨parts, h⟩ := exists_decomposes name
  refine ⟨parts, h, fun _ hother ↦ h.unique hother, fun _ ↦ toSteps_ofName_of_nil h, fun hcut ↦ ?_,
    flatMap_text_toSteps h⟩
  by_cases hinner : parts.inner = []
  · have hparts : parts = ⟨name.toList, [], []⟩ :=
      (decomposes_of_notMem (hcut.resolve_right (not_not.mpr hinner))).unique h
    have hroot : name.toList ≠ [] := mt String.toList_eq_nil_iff.mp hname
    have hnames : parts.names = [name] := by
      rw [hparts, Parts.names, if_neg hroot, String.ofList_toList]
      rfl
    refine ⟨name, [], [], hnames, .nil, ?_⟩
    rw [toSteps_ofName_of_nil h hinner, hparts, if_pos rfl]
    rfl
  · obtain ⟨first, more, hnames, hsteps⟩ := exists_toSteps_ofName h hinner
    exact ⟨first, more, _, hnames, Step.forall₂_reads more, hsteps⟩

/-- Five of the segments are read, and the sixth one is no segment any more. -/
theorem ofName_decomposition_of_long_name :
    let name := "é[b][][07][7][x][y]z["
    let parts : Parts := ⟨['é'], ["b", "", "07", "7", "x"], "[y]z[".toList⟩
    name ≠ "" ∧ parts.Decomposes name ∧ (∀ other : Parts, other.Decomposes name → other = parts) ∧
      (ofName name).toSteps = [.key "é", .key "b", .append, .key "07", .index 7, .key "x",
        .key "[y]z["] ∧
      ((ofName name).toSteps.flatMap fun step ↦ step.text.toList) =
        parts.root ++ parts.inner.flatMap String.toList ++ parts.rest := by
  intro name parts
  have hname : name ≠ "" := by decide
  have hall : (parts.inner.all fun segment ↦ segment.toList.all fun c ↦ !isBracket c) = true := by
    decide
  have hparts : parts.Decomposes name :=
    ⟨by decide, by decide, by simpa using hall, by decide, .inr (.inl rfl)⟩
  obtain ⟨only, honly, hunique, -, -, htext⟩ := ofName_decomposition hname
  obtain rfl := hunique parts hparts
  exact ⟨hname, hparts, hunique, by decide, htext⟩

end Path

end RowFilter.QueryString
