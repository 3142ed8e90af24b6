import RowFilter.QueryString.Path

/-!
The written form of a path: the root and behind it every step in brackets. A path is read back from
its written form if its names have no brackets of their own and no key looks like an index.
-/

set_option autoImplicit false

namespace RowFilter.QueryString

/-! ### Steps -/

namespace Step

/-- What stands between the brackets of a step. -/
def text : Step → String
  | .key name => name
  | .index i => toString i
  | .append => ""

/-- A step that its text names: a key that is neither empty nor an index and breaks no bracket, or
one of the indices. -/
def Plain : Step → Prop
  | .key name =>
    name ≠ "" ∧ '[' ∉ name.toList ∧ ']' ∉ name.toList ∧ ∀ i ≤ 20, name ≠ toString i
  | .index i => i ≤ 20
  | .append => True

/-- The step that a segment stands for: an append without a text, an index where the text is how one
of the numbers up to 20 is written, and otherwise a key. -/
inductive Reads : String → Step → Prop
  | append : Reads "" .append
  | index (i : Nat) (h : i ≤ 20) : Reads (toString i) (.index i)
  | key (segment : String) (hne : segment ≠ "") (hindex : ∀ i ≤ 20, segment ≠ toString i) :
      Reads segment (.key segment)

theorem index?_toString : ∀ i ≤ 20, index? (toString i) = some i := by decide

theorem index?_eq_some_iff {segment : String} {i : Nat} :
    index? segment = some i ↔ i ≤ 20 ∧ segment = toString i := by
  constructor
  · intro h
    have hlt : i < 21 := List.mem_range.mp (List.mem_of_find?_eq_some h)
    have htext : toString i = segment := by simpa using List.find?_some h
    exact ⟨Nat.le_of_lt_succ hlt, htext.symm⟩
  · rintro ⟨hi, rfl⟩
    exact index?_toString i hi

theorem index?_eq_none {name : String} (h : ∀ i ≤ 20, name ≠ toString i) : index? name = none := by
  rw [index?, List.find?_eq_none]
  intro i hi
  have hle : i ≤ 20 := Nat.le_of_lt_succ (List.mem_range.mp hi)
  simpa using (h i hle).symm

theorem isBracket_of_mem_toString (i : Nat) : ∀ c ∈ (toString i).toList, isBracket c = false := by
  intro c hc
  rw [Nat.toString_eq_repr, Nat.toList_repr] at hc
  have hdigit : c.isDigit = true := Nat.isDigit_of_mem_toDigits (by decide) (by decide) hc
  have hopening : c ≠ '[' := by rintro rfl; exact absurd hdigit (by decide)
  have hclosing : c ≠ ']' := by rintro rfl; exact absurd hdigit (by decide)
  simp [isBracket, hopening, hclosing]

theorem ofSegment_text {step : Step} (h : step.Plain) : ofSegment step.text = step := by
  cases step with
  | key name =>
    obtain ⟨hne, -, -, hindex⟩ := h
    simp [ofSegment, text, hne, index?_eq_none hindex]
  | index i =>
    have hne : ∀ i ≤ 20, toString i ≠ "" := by decide
    simp only [ofSegment, text, hne i h, if_false, index?_toString i h]
  | append => rfl

theorem reads_ofSegment (segment : String) : Reads segment (ofSegment segment) := by
  unfold ofSegment
  by_cases hempty : segment = ""
  · rw [if_pos hempty, hempty]
    exact .append
  · rw [if_neg hempty]
    cases hindex : index? segment with
    | some i =>
      obtain ⟨hi, rfl⟩ := index?_eq_some_iff.mp hindex
      exact .index i hi
    | none =>
      refine .key segment hempty fun i hi heq ↦ ?_
      rw [index?_eq_some_iff.mpr ⟨hi, heq⟩] at hindex
      exact Option.some_ne_none _ hindex

theorem Reads.text_eq {segment : String} {step : Step} (h : Reads segment step) :
    step.text = segment := by
  cases h <;> rfl

theorem Reads.plain {segment : String} {step : Step} (h : Reads segment step)
    (hopening : '[' ∉ segment.toList) (hclosing : ']' ∉ segment.toList) : step.Plain := by
  cases h with
  | append => trivial
  | index i hi => exact hi
  | key _ hne hindex => exact ⟨hne, hopening, hclosing, hindex⟩

theorem text_ofSegment (segment : String) : (ofSegment segment).text = segment :=
  (reads_ofSegment segment).text_eq

theorem exists_ofSegment_eq_index_iff {segment : String} :
    (∃ i, ofSegment segment = .index i) ↔ ∃ i ≤ 20, segment = toString i := by
  constructor
  · rintro ⟨i, hi⟩
    have hreads : Reads segment (.index i) := hi ▸ reads_ofSegment segment
    cases hreads with
    | index _ hle => exact ⟨i, hle, rfl⟩
  · rintro ⟨i, hi, rfl⟩
    have htext : ofSegment (Step.index i).text = .index i := ofSegment_text hi
    exact ⟨i, htext⟩

theorem plain_ofSegment {segment : String} (hopening : '[' ∉ segment.toList)
    (hclosing : ']' ∉ segment.toList) : (ofSegment segment).Plain :=
  (reads_ofSegment segment).plain hopening hclosing

theorem isBracket_of_mem_text {step : Step} (h : step.Plain) :
    ∀ c ∈ step.text.toList, isBracket c = false := by
  cases step with
  | key name =>
    obtain ⟨-, hopening, hclosing, -⟩ := h
    intro c hc
    have hneOpening : c ≠ '[' := fun heq ↦ hopening (heq ▸ hc)
    have hneClosing : c ≠ ']' := fun heq ↦ hclosing (heq ▸ hc)
    simp [isBracket, hneOpening, hneClosing]
  | index i => exact isBracket_of_mem_toString i
  | append => simp [text]

end Step

/-! ### Segments -/

theorem segment?_bracketed {inside : List Char} (h : ∀ c ∈ inside, isBracket c = false)
    (rest : List Char) : segment? ('[' :: inside ++ ']' :: rest) = some (inside, rest) := by
  have hinside : ∀ c ∈ inside, (!isBracket c) = true := by simpa using h
  have htake : (inside ++ ']' :: rest).takeWhile (fun c ↦ !isBracket c) = inside := by
    rw [List.takeWhile_append_of_pos hinside]
    simp [isBracket]
  have hdrop : (inside ++ ']' :: rest).dropWhile (fun c ↦ !isBracket c) = ']' :: rest := by
    rw [List.dropWhile_append_of_pos hinside]
    simp [isBracket]
  simp only [List.cons_append, segment?, hdrop, htake]

/-- Segments one behind another, each in its brackets. -/
def inBrackets (inner : List String) : List Char :=
  inner.flatMap fun segment ↦ '[' :: segment.toList ++ [']']

theorem inBrackets_cons (segment : String) (rest : List String) :
    inBrackets (segment :: rest) = '[' :: segment.toList ++ ']' :: inBrackets rest := by
  simp [inBrackets]

/-- Segments are read up to the bound, or up to a text that begins with none. -/
theorem segments_inBrackets_append {bound : Nat} {inner : List String} {tail : List Char}
    (hlength : inner.length ≤ bound)
    (hinner : ∀ segment ∈ inner, ∀ c ∈ segment.toList, isBracket c = false)
    (hend : inner.length = bound ∨ segment? tail = none) :
    segments bound (inBrackets inner ++ tail) = (inner, tail) := by
  induction inner generalizing bound with
  | nil =>
    cases bound with
    | zero => rfl
    | succ bound =>
      have hnone : segment? tail = none := hend.resolve_left (by simp)
      simp [inBrackets, segments, hnone]
  | cons segment rest ih =>
    obtain ⟨hsegment, hrest⟩ := List.forall_mem_cons.mp hinner
    cases bound with
    | zero => simp at hlength
    | succ bound =>
      have hcut : segment? (inBrackets (segment :: rest) ++ tail) =
          some (segment.toList, inBrackets rest ++ tail) := by
        rw [inBrackets_cons, List.append_assoc, List.cons_append]
        exact segment?_bracketed hsegment (inBrackets rest ++ tail)
      have hmore := ih (Nat.le_of_succ_le_succ hlength) hrest (hend.imp_left Nat.succ.inj)
      simp [segments, hcut, hmore, String.ofList_toList]

/-- Steps as they are written behind a root. -/
def bracketed (steps : List Step) : List Char :=
  steps.flatMap fun step ↦ '[' :: step.text.toList ++ [']']

theorem bracketed_eq (steps : List Step) : bracketed steps = inBrackets (steps.map Step.text) := by
  rw [inBrackets, List.flatMap_map]
  rfl

theorem segments_bracketed {bound : Nat} {steps : List Step} (hlength : steps.length ≤ bound)
    (hplain : ∀ step ∈ steps, step.Plain) :
    segments bound (bracketed steps) = (steps.map Step.text, []) := by
  rw [bracketed_eq, ← List.append_nil (inBrackets _)]
  apply segments_inBrackets_append
  · rwa [List.length_map]
  · exact List.forall_mem_map.mpr fun step hstep ↦ Step.isBracket_of_mem_text (hplain step hstep)
  · exact .inr rfl

/-! ### Paths -/

namespace Path

/-- The name of the parameter that leads to a place. -/
def text (path : Path) : String := path.root ++ String.ofList (bracketed path.steps)

/-- A path that its name spells: a root in front of the first bracket and at most five steps. -/
structure Plain (path : Path) : Prop where
  root_ne_empty : path.root ≠ ""
  root_unbracketed : '[' ∉ path.root.toList
  length_le : path.steps.length ≤ 5
  steps_plain : ∀ step ∈ path.steps, step.Plain

/-- A name with empty brackets behind it is that of the path with an append as its last step. -/
theorem text_append_brackets (path : Path) :
    path.text ++ "[]" = text ⟨path.root, path.steps ++ [.append]⟩ := by
  have hbracketed : bracketed (path.steps ++ [.append]) = bracketed path.steps ++ ['[', ']'] :=
    List.flatMap_append
  rw [text, text, hbracketed, String.ofList_append, String.append_assoc]

theorem Plain.append {path : Path} (h : path.Plain) (hshort : path.steps.length < 5) :
    Plain ⟨path.root, path.steps ++ [.append]⟩ where
  root_ne_empty := h.root_ne_empty
  root_unbracketed := h.root_unbracketed
  length_le := by
    rw [List.length_append, List.length_singleton]
    exact hshort
  steps_plain := by
    intro step hstep
    rcases List.mem_append.mp hstep with hstep | hstep
    · exact h.steps_plain step hstep
    · rw [List.mem_singleton.mp hstep]
      trivial

theorem text_ne_empty {path : Path} (h : path.Plain) : path.text ≠ "" := by
  intro hempty
  have hroot := congrArg String.toList hempty
  simp only [text, String.toList_append, String.toList_empty, List.append_eq_nil_iff,
    String.toList_eq_nil_iff] at hroot
  exact h.root_ne_empty hroot.1

/-- A name that its root and its segments use up. -/
theorem ofName_of_segments {name : String} {root : List Char} {inner : List String}
    (hne : root ≠ []) (hroot : name.toList.takeWhile (· != '[') = root)
    (hinner : segments maxSegments (name.toList.dropWhile (· != '[')) = (inner, [])) :
    ofName name =
      if inner = [] then ⟨name, []⟩ else ⟨String.ofList root, inner.map Step.ofSegment⟩ := by
  obtain ⟨c, cs, rfl⟩ := List.exists_cons_of_ne_nil hne
  simp only [ofName, hroot, hinner]
  cases inner with
  | nil => rfl
  | cons first rest => simp [tailSteps]

theorem ofName_text {path : Path} (h : path.Plain) : ofName path.text = path := by
  obtain ⟨root, steps⟩ := path
  have hunbracketed : ∀ c ∈ root.toList, (c != '[') = true := fun c hc ↦
    bne_iff_ne.mpr fun heq ↦ h.root_unbracketed (heq ▸ hc)
  have htext : (text ⟨root, steps⟩).toList = root.toList ++ bracketed steps := by simp [text]
  have hbehind : (bracketed steps).takeWhile (· != '[') = [] ∧
      (bracketed steps).dropWhile (· != '[') = bracketed steps := by
    cases steps <;> simp [bracketed]
  have hroot : (text ⟨root, steps⟩).toList.takeWhile (· != '[') = root.toList := by
    rw [htext, List.takeWhile_append_of_pos hunbracketed, hbehind.1, List.append_nil]
  have hinner : segments maxSegments ((text ⟨root, steps⟩).toList.dropWhile (· != '[')) =
      (steps.map Step.text, []) := by
    rw [htext, List.dropWhile_append_of_pos hunbracketed, hbehind.2]
    exact segments_bracketed h.length_le h.steps_plain
  have hsteps : (steps.map Step.text).map Step.ofSegment = steps := by
    rw [List.map_map]
    exact (List.map_congr_left fun step hstep ↦
      Step.ofSegment_text (h.steps_plain step hstep)).trans (List.map_id steps)
  rw [ofName_of_segments (by simpa using h.root_ne_empty) hroot hinner, hsteps,
    String.ofList_toList]
  cases steps with
  | nil => simp [text, bracketed]
  | cons step rest => rfl

end Path

end RowFilter.QueryString
