import RowFilter.Proofs.Sql.Placeholder

/-!
Rows of lexemes that are numbered from any number on. A row is one piece of text, and several rows
share a count. `Laid` says that each number of the count stands in one of the rows, once, behind the
label that belongs to it. Rows that continue a count can be put behind each other (`Laid.append`),
reordered (`Laid.perm`) and joined to one row (`Laid.joined`), so what holds of the row of a single
predicate holds of everything that is built out of such rows.
-/

set_option autoImplicit false

namespace RowFilter.Sql

/-- The numbers from `start` on, one for each label, are the placeholders of the rows, and each
stands behind its label. -/
structure Laid (start : Nat) (labels : List String) (rows : List (List Lexeme)) : Prop where
  phrase : ∀ row ∈ rows, Phrase row
  dollar : ∀ row ∈ rows, ∀ l ∈ row, '$' ∈ l.text → ∃ n, l = .placeholder n
  numbers : (rows.flatMap numbersOf).Perm (List.range' start labels.length)
  labelled : ∀ k label, labels[k]? = some label → ∃ row ∈ rows, LabelledAt row label (start + k)

/-- The numbers from `start` on, one for each label, stand in the pieces of a text. Each of them
stands in one piece, at one place there, behind its label, and no other dollar sign occurs. -/
structure Counted (start : Nat) (labels : List String) (pieces : List String) : Prop where
  once : ∀ k label, labels[k]? = some label → ∃ before piece after,
    pieces = before ++ piece :: after ∧ StandsOnceBehind (start + k) label piece.toList ∧
      ∀ other ∈ before ++ after, ∀ x y, ¬ StandsBetween (start + k) other.toList x y
  dollar : ∀ piece ∈ pieces, ∀ x y, piece.toList = x ++ '$' :: y → ∃ n behind,
    start ≤ n ∧ n < start + labels.length ∧ StandsBetween n piece.toList x behind

/-- A placeholder that stands in the text of a row is one of its lexemes. -/
theorem mem_numbersOf_of_standsBetween {ls : List Lexeme} (hchain : ls.IsChain Lexeme.Apart)
    (hdollar : ∀ l ∈ ls, '$' ∈ l.text → ∃ n, l = .placeholder n) {n : Nat} {x y : List Char}
    (h : StandsBetween n (textOf ls) x y) : n ∈ numbersOf ls := by
  obtain ⟨htext, hy⟩ := h
  rw [toList_placeholder, List.append_assoc, List.cons_append] at htext
  obtain ⟨front, m, back, hls, -, hafter⟩ := split_at_dollar hdollar htext
  obtain ⟨rfl, -⟩ := toDigits_append_inj hy (notDigit_behind hchain hls) hafter
  exact List.mem_filterMap.mpr ⟨.placeholder n, by simp [hls], rfl⟩

theorem numbersOf_eq_nil {ls : List Lexeme} (h : ∀ l ∈ ls, '$' ∉ l.text) : numbersOf ls = [] := by
  refine List.filterMap_eq_nil_iff.mpr fun l hl ↦ ?_
  cases l with
  | placeholder n => exact absurd (dollar_mem_placeholder n) (h _ hl)
  | word s => rfl
  | column c => rfl
  | blank => rfl
  | comma => rfl
  | opening => rfl
  | closing => rfl

/-- The rows as one row with a word between them and lexemes around them, or no row. -/
def joined (word : String) (front back : List Lexeme) : List (List Lexeme) → List (List Lexeme)
  | [] => []
  | rows => [front ++ [.blank, .word word, .blank].intercalate rows ++ back]

theorem joined_cons (word : String) (front back row : List Lexeme) (rest : List (List Lexeme)) :
    joined word front back (row :: rest) =
      [front ++ [.blank, .word word, .blank].intercalate (row :: rest) ++ back] := rfl

theorem numbersOf_joined {word : String} {front back : List Lexeme}
    (hplain : ∀ l ∈ front ++ .word word :: back, '$' ∉ l.text) (rows : List (List Lexeme)) :
    (joined word front back rows).flatMap numbersOf = rows.flatMap numbersOf := by
  cases rows with
  | nil => rfl
  | cons row rest =>
    have hfront : numbersOf front = [] := numbersOf_eq_nil fun l hl ↦ hplain l (by simp [hl])
    have hback : numbersOf back = [] := numbersOf_eq_nil fun l hl ↦ hplain l (by simp [hl])
    have hsep : [.blank, .word word, .blank].filterMap Lexeme.number? = [] := rfl
    have hrows := filterMap_intercalate_map hsep id (row :: rest)
    rw [List.map_id] at hrows
    simp only [joined, List.flatMap_singleton, numbersOf_append, hfront, hback, List.nil_append,
      List.append_nil]
    exact hrows

namespace Laid

variable {start : Nat} {labels : List String} {rows : List (List Lexeme)}

theorem nil (start : Nat) : Laid start [] [] where
  phrase := List.forall_mem_nil _
  dollar := List.forall_mem_nil _
  numbers := .nil
  labelled := fun _ _ h ↦ absurd h (by simp)

/-- Rows that count on where other rows stop. -/
theorem append (h : Laid start labels rows) {labels' : List String} {rows' : List (List Lexeme)}
    (h' : Laid (start + labels.length) labels' rows') :
    Laid start (labels ++ labels') (rows ++ rows') where
  phrase := List.forall_mem_append.mpr ⟨h.phrase, h'.phrase⟩
  dollar := List.forall_mem_append.mpr ⟨h.dollar, h'.dollar⟩
  numbers := by
    rw [List.flatMap_append, List.length_append, ← List.range'_append_1]
    exact h.numbers.append h'.numbers
  labelled := fun k label hlabel ↦ by
    rcases Nat.lt_or_ge k labels.length with hk | hk
    · rw [List.getElem?_append_left hk] at hlabel
      obtain ⟨row, hrow, hat⟩ := h.labelled k label hlabel
      exact ⟨row, List.mem_append_left _ hrow, hat⟩
    · rw [List.getElem?_append_right hk] at hlabel
      obtain ⟨row, hrow, hat⟩ := h'.labelled _ label hlabel
      rw [Nat.add_assoc, Nat.add_sub_cancel' hk] at hat
      exact ⟨row, List.mem_append_right _ hrow, hat⟩

theorem perm (h : Laid start labels rows) {rows' : List (List Lexeme)} (hrows : rows.Perm rows') :
    Laid start labels rows' where
  phrase := fun row hrow ↦ h.phrase row (hrows.mem_iff.mpr hrow)
  dollar := fun row hrow ↦ h.dollar row (hrows.mem_iff.mpr hrow)
  numbers := (hrows.symm.flatMap_right _).trans h.numbers
  labelled := fun k label hlabel ↦ by
    obtain ⟨row, hrow, hat⟩ := h.labelled k label hlabel
    exact ⟨row, hrows.mem_iff.mp hrow, hat⟩

/-- Words and brackets neither hide a placeholder nor add one. -/
theorem joined {word : String} {front back : List Lexeme}
    (hframe : ∀ inner, Phrase inner → Phrase (front ++ inner ++ back))
    (hplain : ∀ l ∈ front ++ .word word :: back, '$' ∉ l.text) (h : Laid start labels rows) :
    Laid start labels (joined word front back rows) := by
  cases rows with
  | nil => exact h
  | cons row rest =>
    refine ⟨?_, ?_, ?_, fun k label hlabel ↦ ?_⟩
    · exact List.forall_mem_singleton.mpr (hframe _
        (Phrase.intercalate (fun _ _ ↦ Phrase.join_word word) (List.cons_ne_nil _ _) h.phrase))
    · have hsep : ∀ l ∈ [Lexeme.blank, .word word, .blank], '$' ∉ l.text := by
        simpa [Lexeme.text] using hplain (.word word) (by simp)
      have hrows := forall_mem_intercalate (fun l hl hmem ↦ absurd hmem (hsep l hl)) h.dollar
      refine List.forall_mem_singleton.mpr (List.forall_mem_append.mpr
        ⟨List.forall_mem_append.mpr ⟨fun l hl hmem ↦ ?_, hrows⟩, fun l hl hmem ↦ ?_⟩)
      · exact absurd hmem (hplain l (by simp [hl]))
      · exact absurd hmem (hplain l (by simp [hl]))
    · rw [numbersOf_joined hplain]
      exact h.numbers
    · obtain ⟨part, hpart, hat⟩ := h.labelled k label hlabel
      exact ⟨_, List.mem_singleton_self _,
        hat.mono ((infix_intercalate hpart).trans ⟨front, back, rfl⟩)⟩

/-- What holds of the rows is seen in the text of their pieces. -/
theorem counted (h : Laid start labels rows) :
    Counted start labels (rows.map fun row ↦ String.ofList (textOf row)) := by
  have hnodup : (rows.flatMap numbersOf).Nodup := h.numbers.nodup_iff.mpr List.nodup_range'
  constructor
  · intro k label hlabel
    obtain ⟨row, hrow, hat⟩ := h.labelled k label hlabel
    obtain ⟨before, after, rfl⟩ := List.append_of_mem hrow
    rw [List.flatMap_append, List.flatMap_cons] at hnodup
    obtain ⟨-, hbehind, hfront⟩ := List.nodup_append.mp hnodup
    obtain ⟨hrowNodup, -, hback⟩ := List.nodup_append.mp hbehind
    have hown : start + k ∈ numbersOf row := by
      obtain ⟨first, rest, -, -, hinfix⟩ := hat
      exact List.mem_filterMap.mpr ⟨.placeholder (start + k), hinfix.subset (by simp), rfl⟩
    have hothers : ∀ other ∈ before ++ after, start + k ∉ numbersOf other := by
      refine List.forall_mem_append.mpr ⟨fun other hother hmem ↦ ?_, fun other hother hmem ↦ ?_⟩
      · exact hfront _ (List.mem_flatMap.mpr ⟨other, hother, hmem⟩) _
          (List.mem_append_left _ hown) rfl
      · exact hback _ hown _ (List.mem_flatMap.mpr ⟨other, hother, hmem⟩) rfl
    refine ⟨_, _, _, List.map_append, ?_, ?_⟩
    · rw [String.toList_ofList]
      exact hat.standsOnceBehind (h.phrase row hrow).isChain_apart (h.dollar row hrow) hrowNodup
    · rw [← List.map_append]
      refine List.forall_mem_map.mpr fun other hother x y hstands ↦ ?_
      have hmem : other ∈ before ++ row :: after := by
        rcases List.mem_append.mp hother with hother | hother
        · exact List.mem_append_left _ hother
        · exact List.mem_append_right _ (List.mem_cons_of_mem _ hother)
      rw [String.toList_ofList] at hstands
      exact hothers other hother (mem_numbersOf_of_standsBetween
        (h.phrase other hmem).isChain_apart (h.dollar other hmem) hstands)
  · intro piece hpiece x y hxy
    obtain ⟨row, hrow, rfl⟩ := List.mem_map.mp hpiece
    rw [String.toList_ofList] at hxy ⊢
    obtain ⟨front, n, back, hfront, rfl, rfl⟩ := split_at_dollar (h.dollar row hrow) hxy
    have hmem : n ∈ rows.flatMap numbersOf :=
      List.mem_flatMap.mpr
        ⟨row, hrow, List.mem_filterMap.mpr ⟨.placeholder n, by simp [hfront], rfl⟩⟩
    rw [h.numbers.mem_iff, List.mem_range'_1] at hmem
    refine ⟨n, textOf back, hmem.1, hmem.2, ?_,
      notDigit_behind (h.phrase row hrow).isChain_apart hfront⟩
    rw [hxy, toList_placeholder, List.append_assoc]
    rfl

end Laid

end RowFilter.Sql
