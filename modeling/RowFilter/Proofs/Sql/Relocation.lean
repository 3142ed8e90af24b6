import RowFilter.Proofs.Sql.Stage

/-!
Single steps of compiling, at any first number and one after another. Another first number changes
the numbers of a step by the difference and nothing else, and steps of which each starts where the
one before it stops count all their values without a gap (`Stage.relocatable`).
-/

set_option autoImplicit false

namespace RowFilter.Sql

/-! ### Texts with other numbers -/

/-- The second text has `k n` where the first has a placeholder `n`, and is otherwise the same. -/
inductive Renumbered (k : Nat → Nat) : List Char → List Char → Prop where
  | nil : Renumbered k [] []
  | char {c : Char} {first second : List Char} (hc : c ≠ '$') (h : Renumbered k first second) :
    Renumbered k (c :: first) (c :: second)
  | placeholder (n : Nat) {first second : List Char} (hend : ∀ c ∈ first.head?, c.isDigit = false)
    (h : Renumbered k first second) :
    Renumbered k ((placeholder n).toList ++ first) ((Sql.placeholder (k n)).toList ++ second)

theorem Renumbered.append_left {k : Nat → Nat} {first second : List Char}
    (h : Renumbered k first second) {front : List Char} (hfront : '$' ∉ front) :
    Renumbered k (front ++ first) (front ++ second) := by
  induction front with
  | nil => exact h
  | cons c rest ih =>
    rw [List.mem_cons, not_or] at hfront
    exact .char (Ne.symm hfront.1) (ih hfront.2)

theorem Lexeme.rewrite_eq_self (k : Nat → Nat) {l : Lexeme} (h : '$' ∉ l.text) :
    l.rewrite id k = l := by
  cases l with
  | placeholder n => exact absurd (dollar_mem_placeholder n) h
  | word s => rfl
  | column c => rfl
  | blank => rfl
  | comma => rfl
  | opening => rfl
  | closing => rfl

/-- Other numbers in a row of lexemes are other numbers in its text. -/
theorem renumbered_textOf (k : Nat → Nat) {ls : List Lexeme} (hchain : ls.IsChain Lexeme.Apart)
    (hdollar : ∀ l ∈ ls, '$' ∈ l.text → ∃ n, l = .placeholder n) :
    Renumbered k (textOf ls) (textOf (ls.map (Lexeme.rewrite id k))) := by
  induction ls with
  | nil => exact .nil
  | cons l rest ih =>
    obtain ⟨hl, hrest⟩ := List.forall_mem_cons.mp hdollar
    have htail := ih (List.isChain_cons.mp hchain).2 hrest
    rw [List.map_cons, textOf_cons, textOf_cons]
    by_cases hsign : '$' ∈ l.text
    · obtain ⟨n, rfl⟩ := hl hsign
      exact .placeholder n (notDigit_behind hchain (List.nil_append _).symm) htail
    · rw [Lexeme.rewrite_eq_self k hsign]
      exact htail.append_left hsign

/-! ### Runs -/

namespace Stage

variable (aliases : Option AliasMap)

/-- Several steps, each from the number on that the one before it hands over. -/
def runAll (column : Columns) (start : Nat) (stages : List Stage) : Fragment :=
  Fragment.inOrder (fun n s ↦ s.run column n) start stages

theorem runAll_cons (column : Columns) (start : Nat) (s : Stage) (rest : List Stage) :
    runAll column start (s :: rest) =
      (s.run column start).append (runAll column (s.run column start).next rest) := rfl

/-- Two first numbers give the same pieces, in which the numbers differ as the first ones do. -/
theorem renumbered_run (i j : Nat) (s : Stage) :
    List.Forall₂ (fun p q : String ↦ Renumbered (fun n ↦ n + j - i) p.toList q.toList)
      (s.run (columns aliases) i).pieces (s.run (columns aliases) j).pieces := by
  have hparts (n : Nat) : s.parts (Column.of aliases) n =
      (s.parts (Column.of aliases) 0).map (Piece.map (n + ·)) := s.parts_add _ n 0
  have hcancel (n : Nat) : i + n + j - i = j + n := by omega
  have hlaid := s.laid aliases i
  rw [pieces_run, pieces_run, hparts i, hparts j, List.map_map, List.map_map,
    List.forall₂_map_left_iff, List.forall₂_map_right_iff, List.forall₂_same]
  intro p hp
  have hrow : (p.map (i + ·)).row ∈ (s.parts (Column.of aliases) i).map Piece.row := by
    rw [hparts]
    exact List.mem_map_of_mem (List.mem_map_of_mem hp)
  have hrenumbered := renumbered_textOf (fun n ↦ n + j - i)
    (hlaid.phrase _ hrow).isChain_apart (hlaid.dollar _ hrow)
  simp only [Piece.row_map, List.map_map, Function.comp_def, Lexeme.rewrite_rewrite,
    hcancel] at hrenumbered
  simp only [Function.comp_apply, Piece.text, Piece.row_map, String.toList_ofList]
  exact hrenumbered

theorem values_runAll (column : Columns) (start : Nat) (stages : List Stage) :
    (runAll column start stages).values = (stages.flatMap (bindings column)).map Prod.snd := by
  induction stages generalizing start with
  | nil => rfl
  | cons s rest ih =>
    rw [runAll_cons, Fragment.append, ih, List.flatMap_cons, List.map_append, values_run]

theorem next_runAll (column : Columns) (start : Nat) (stages : List Stage) :
    (runAll column start stages).next = start + (runAll column start stages).values.length :=
  Fragment.next_inOrder (fun n s ↦ s.next_run column n) start stages

/-- The pieces of a run share one count, and where its numbers lead to its values, they lead to what
the steps ask for. -/
theorem exists_parts_runAll (start : Nat) (stages : List Stage) :
    ∃ ps : List (Piece Nat), (runAll (columns aliases) start stages).pieces = ps.map Piece.text ∧
      Laid start ((stages.flatMap (bindings (columns aliases))).map Prod.fst) (ps.map Piece.row) ∧
      ∀ lookup, LeadsTo lookup start (runAll (columns aliases) start stages).values →
        ps.map (Piece.map lookup) =
          (stages.flatMap (asked (Column.of aliases))).map (Piece.map some) := by
  induction stages generalizing start with
  | nil => exact ⟨[], rfl, .nil start, fun _ _ ↦ rfl⟩
  | cons s rest ih =>
    obtain ⟨others, hpieces, hlaid, hmap⟩ := ih (s.run (columns aliases) start).next
    refine ⟨s.parts (Column.of aliases) start ++ others, ?_, ?_, fun lookup hlookup ↦ ?_⟩
    · rw [runAll_cons, Fragment.append, hpieces, pieces_run, List.map_append]
    · rw [List.flatMap_cons, List.map_append, List.map_append]
      refine (s.laid aliases start).append ?_
      rwa [next_run, values_run, List.length_map, ← List.length_map (f := Prod.fst)] at hlaid
    · obtain ⟨hfirst, hothers⟩ := leadsTo_append.mp hlookup
      rw [← next_run] at hothers
      rw [List.map_append, List.flatMap_cons, List.map_append, map_parts hfirst, hmap _ hothers]

/-- A step yields the same values from any number on, takes as many numbers as it has values, and
has the same text up to the numbers, which differ by the difference of the first ones. Of several
steps, each from where the one before it stops, the pieces hold the numbers from the first one on,
each once and behind the column and operator, or the bound, whose value has this place among all
values; with every number replaced by that value, the pieces are what the steps ask for. -/
theorem relocatable (aliases : Option AliasMap) :
    (∀ (s : Stage) (i j : Nat),
        (s.run (columns aliases) i).values = (s.run (columns aliases) j).values ∧
          (s.run (columns aliases) i).next = i + (s.run (columns aliases) i).values.length ∧
          List.Forall₂ (fun p q : String ↦ Renumbered (fun n ↦ n + j - i) p.toList q.toList)
            (s.run (columns aliases) i).pieces (s.run (columns aliases) j).pieces) ∧
      ∀ (start : Nat) (stages : List Stage),
        let r := runAll (columns aliases) start stages
        r.values = (stages.flatMap (bindings (columns aliases))).map Prod.snd ∧
          r.next = start + r.values.length ∧
          Counted start ((stages.flatMap (bindings (columns aliases))).map Prod.fst) r.pieces ∧
          ∃ ps : List (Piece Nat), r.pieces = ps.map Piece.text ∧
            ps.map (Piece.map fun n ↦ r.values[n - start]?) =
              (stages.flatMap (asked (Column.of aliases))).map (Piece.map some) := by
  constructor
  · intro s i j
    refine ⟨?_, s.next_run _ i, s.renumbered_run aliases i j⟩
    rw [values_run, values_run]
  · intro start stages r
    obtain ⟨ps, hpieces, hlaid, hmap⟩ := exists_parts_runAll aliases start stages
    refine ⟨values_runAll _ start stages, next_runAll _ start stages, ?_, ps, hpieces,
      hmap _ (leadsTo_getElem? _ start)⟩
    have hcounted := hlaid.counted
    rw [List.map_map] at hcounted
    rw [hpieces]
    exact hcounted

example :
    runAll (columns none) 9
        [.condition ⟨⟨"a", by decide⟩, .compare [⟨.ne, .null⟩, ⟨.gt, .int 1⟩]⟩,
          .entries [.field ⟨⟨"b", by decide⟩, .equals (.int 2)⟩], .page ⟨none, some (.int 3), []⟩] =
      ⟨["a IS NOT NULL", "a > $9", "WHERE b = $10", "LIMIT $11", "OFFSET $12"],
        [.int 1, .int 2, .int 10, .int 3], 13⟩ := rfl

end Stage

end RowFilter.Sql
