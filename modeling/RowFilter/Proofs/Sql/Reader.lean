import RowFilter.Proofs.Sql.Vocabulary

/-!
Readers that go through a text from left to right and give back a value and the text behind it. Each
reader has one law, `Reads`: what it accepts is what the value is written as, and what is written is
read back as long as the text behind it does not continue it.
-/

set_option autoImplicit false

namespace RowFilter.Sql

/-- Takes a value off the front of a text. -/
abbrev Reader (α : Type) := List Char → Option (α × List Char)

/-- A reader takes the value off a piece of text, whatever stands behind it as long as that
satisfies `stop`. -/
def ReadsAs {α : Type} (read? : Reader α) (stop : List Char → Prop) (text : List Char) (a : α) :
    Prop := ∀ rest, stop rest → read? (text ++ rest) = some (a, rest)

/-- A reader undoes a way of writing `good` values in front of a text that satisfies `stop`. -/
structure Reads {α : Type} (read? : Reader α) (good : α → Prop) (write : α → List Char)
    (stop : List Char → Prop) : Prop where
  sound : ∀ {text a rest}, read? text = some (a, rest) → good a ∧ text = write a ++ rest
  complete : ∀ {a}, good a → ReadsAs read? stop (write a) a

/-- A text that continues neither a name nor a number. -/
def Ends (rest : List Char) : Prop := ∀ c ∈ rest.head?, isWordChar c = false ∧ c ≠ '.'

theorem ends_nil : Ends [] := by
  intro c hc
  cases hc

theorem ends_cons {c : Char} {rest : List Char} (hc : isWordChar c = false ∧ c ≠ '.') :
    Ends (c :: rest) := by
  intro d hd
  cases hd
  exact hc

/-! ### Fixed words -/

/-- The text behind a fixed word at the front. -/
def literal? (word : String) (text : List Char) : Option (List Char) :=
  word.toList.isPrefixOf? text

theorem literal?_eq_some_iff {word : String} {text rest : List Char} :
    literal? word text = some rest ↔ text = word.toList ++ rest :=
  List.isPrefixOf?_eq_some_iff_append_eq.trans eq_comm

@[simp] theorem literal?_append (word : String) (rest : List Char) :
    literal? word (word.toList ++ rest) = some rest := literal?_eq_some_iff.mpr rfl

/-- A word is not at the front of a text that begins with another character. -/
theorem literal?_eq_none {word : String} {text : List Char}
    (h : ∀ c ∈ word.toList.head?, c ∉ text.head?) (hword : word.toList ≠ []) :
    literal? word text = none := by
  refine Option.eq_none_iff_forall_ne_some.mpr fun rest hrest ↦ ?_
  obtain ⟨c, cs, hc⟩ := List.exists_cons_of_ne_nil hword
  rw [literal?_eq_some_iff] at hrest
  exact h c (by rw [hc]; rfl) (by rw [hrest, hc]; rfl)

/-- Reads the first of several words that the text begins with. -/
def choice? {α : Type} (words : List (String × α)) : Reader α := fun text ↦
  words.findSome? fun e ↦ (literal? e.1 text).map fun rest ↦ (e.2, rest)

theorem exists_of_choice? {α : Type} {words : List (String × α)} {text rest : List Char} {a : α}
    (h : choice? words text = some (a, rest)) :
    ∃ word, (word, a) ∈ words ∧ text = word.toList ++ rest := by
  obtain ⟨⟨word, b⟩, hmem, hword⟩ := List.exists_of_findSome?_eq_some h
  obtain ⟨rest', hrest, heq⟩ := Option.map_eq_some_iff.mp hword
  cases heq
  exact ⟨word, hmem, literal?_eq_some_iff.mp hrest⟩

/-! ### Names, columns and numbers -/

def identifier? : Reader Identifier := fun text ↦
  (Identifier.ofString? (String.ofList (text.takeWhile isWordChar))).map fun i ↦
    (i, text.dropWhile isWordChar)

theorem reads_identifier : Reads identifier? (fun _ ↦ True) (fun i ↦ i.text.toList)
    (fun rest ↦ ∀ c ∈ rest.head?, isWordChar c = false) where
  sound := by
    intro text i rest h
    obtain ⟨j, hj, heq⟩ := Option.map_eq_some_iff.mp h
    cases heq
    rw [Identifier.ofString?_eq_some_iff.mp hj, String.toList_ofList,
      List.takeWhile_append_dropWhile]
    exact ⟨trivial, rfl⟩
  complete := by
    intro i _ rest hstop
    have hend : rest.takeWhile isWordChar = [] ∧ rest.dropWhile isWordChar = rest := by
      cases rest with
      | nil => exact ⟨rfl, rfl⟩
      | cons c cs => simp [hstop c rfl]
    have hname : ∀ c ∈ i.text.toList, isWordChar c = true := fun _ ↦ isWordChar_of_mem
    rw [identifier?, List.takeWhile_append_of_pos hname, List.dropWhile_append_of_pos hname, hend.1,
      hend.2, List.append_nil, String.ofList_toList, Identifier.ofString?_eq_some_iff.mpr rfl]
    rfl

/-- A name, and another one behind a point. -/
def column? : Reader Column := fun text ↦ do
  let (first, text) ← identifier? text
  match literal? "." text with
  | none => return (⟨none, first⟩, text)
  | some text =>
    let (second, text) ← identifier? text
    return (⟨some first, second⟩, text)

theorem reads_column : Reads column? (fun _ ↦ True) (fun c ↦ c.text.toList) Ends where
  sound := by
    intro text c rest h
    obtain ⟨⟨first, behind⟩, hfirst, h⟩ := Option.bind_eq_some_iff.mp h
    refine ⟨trivial, (reads_identifier.sound hfirst).2.trans ?_⟩
    dsimp only at h
    split at h
    · cases h
      rfl
    · rename_i hpoint
      obtain ⟨⟨second, rest'⟩, hsecond, h⟩ := Option.bind_eq_some_iff.mp h
      cases h
      rw [literal?_eq_some_iff.mp hpoint, (reads_identifier.sound hsecond).2, Column.text,
        String.toList_append, String.toList_append, List.append_assoc, List.append_assoc]
  complete := by
    rintro ⟨qualifier, field⟩ - rest hstop
    have hfield := reads_identifier.complete (a := field) trivial rest fun c hc ↦ (hstop c hc).1
    cases qualifier with
    | none =>
      have hpoint : literal? "." rest = none := by
        refine literal?_eq_none (fun c hc hmem ↦ (hstop c hmem).2 ?_) (by decide)
        exact (Option.some.inj hc).symm
      simp only [column?, Column.text, hfield, Option.bind_eq_bind, Option.bind_some, hpoint]
      rfl
    | some a =>
      have hqualifier := reads_identifier.complete (a := a)
        trivial (".".toList ++ (field.text.toList ++ rest)) fun c hc ↦ by
          obtain rfl : '.' = c := Option.some.inj hc
          decide
      simp only [column?, Column.text, String.toList_append, List.append_assoc, hqualifier,
        Option.bind_eq_bind, Option.bind_some, literal?_append, hfield]
      rfl

/-- A dollar sign and the digits of a number, in the one form in which a number is written. -/
def placeholder? : Reader Nat := fun text ↦ do
  let text ← literal? "$" text
  let (digits, text) := Decimal.splitDigits text
  let n := Decimal.natOfDigits digits
  if Nat.toDigits 10 n = digits then return (n, text) else none

theorem reads_placeholder :
    Reads placeholder? (fun _ ↦ True) (fun n ↦ (placeholder n).toList) Ends where
  sound := by
    intro text n rest h
    obtain ⟨behind, hsign, h⟩ := Option.bind_eq_some_iff.mp h
    dsimp only at h
    split at h
    · rename_i hdigits
      cases h
      rw [toList_placeholder, hdigits, literal?_eq_some_iff.mp hsign, List.cons_append,
        Decimal.splitDigits_append]
      exact ⟨trivial, rfl⟩
    · cases h
  complete := by
    intro n _ rest hstop
    have hend : ∀ c ∈ rest.head?, c.isDigit = false := by
      intro c hc
      have hword := (hstop c hc).1
      simp only [isWordChar, Char.isAlphanum, Bool.or_eq_false_iff] at hword
      exact hword.1.2
    have hsign : literal? "$" ('$' :: (Nat.toDigits 10 n ++ rest)) =
        some (Nat.toDigits 10 n ++ rest) := literal?_append "$" _
    rw [toList_placeholder, List.cons_append, placeholder?, hsign, Option.bind_eq_bind,
      Option.bind_some, Decimal.splitDigits_toDigits_append n hend]
    simp only [Decimal.natOfDigits_toDigits]
    rfl

/-! ### Lists -/

section Lists

variable {α : Type}

/-- Reads items as long as the separator follows, at most `bound` of them. -/
def separated? (item? : Reader α) (separator : String) : Nat → Reader (List α)
  | 0, _ => none
  | bound + 1, text => do
    let (a, text) ← item? text
    match literal? separator text with
    | none => return ([a], text)
    | some text =>
      let (as, text) ← separated? item? separator bound text
      return (a :: as, text)

/-- Reads all items; a text has no more separators than characters. -/
def list? (item? : Reader α) (separator : String) : Reader (List α) := fun text ↦
  separated? item? separator (text.length + 1) text

variable {item? : Reader α} {good : α → Prop} {write : α → List Char} {stop : List Char → Prop}

theorem sound_separated? (h : Reads item? good write stop) (separator : String) {bound : Nat}
    {text rest : List Char} {as : List α}
    (has : separated? item? separator bound text = some (as, rest)) :
    (as ≠ [] ∧ ∀ a ∈ as, good a) ∧
      text = separator.toList.intercalate (as.map write) ++ rest := by
  induction bound generalizing text as with
  | zero => cases has
  | succ bound ih =>
    obtain ⟨⟨a, behind⟩, ha, has⟩ := Option.bind_eq_some_iff.mp has
    obtain ⟨hgood, htext⟩ := h.sound ha
    dsimp only at has
    split at has
    · cases has
      rw [List.map_singleton, List.intercalate_singleton]
      exact ⟨⟨List.cons_ne_nil _ _, List.forall_mem_singleton.mpr hgood⟩, htext⟩
    · rename_i next hseparator
      obtain ⟨⟨as', rest'⟩, has', heq⟩ := Option.bind_eq_some_iff.mp has
      cases heq
      obtain ⟨⟨hne, hall⟩, hnext⟩ := ih has'
      obtain ⟨b, bs, rfl⟩ := List.exists_cons_of_ne_nil hne
      refine ⟨⟨List.cons_ne_nil _ _, List.forall_mem_cons.mpr ⟨hgood, hall⟩⟩, ?_⟩
      rw [htext, literal?_eq_some_iff.mp hseparator, hnext]
      simp only [List.map_cons, List.intercalate_cons_cons, List.append_assoc]

theorem complete_separated? {separator : String}
    (hseparator : ∀ text, stop (separator.toList ++ text)) {rest : List Char} (hstop : stop rest)
    (hend : literal? separator rest = none) {texts : List (List Char)} {as : List α}
    (h : List.Forall₂ (ReadsAs item? stop) texts as) (hne : as ≠ []) {bound : Nat}
    (hbound : as.length ≤ bound) :
    separated? item? separator bound (separator.toList.intercalate texts ++ rest) =
      some (as, rest) := by
  induction h generalizing bound with
  | nil => exact absurd rfl hne
  | @cons text a texts as ha has ih =>
    obtain ⟨bound, rfl⟩ := Nat.exists_eq_succ_of_ne_zero (Nat.ne_of_gt (Nat.lt_of_lt_of_le
      (Nat.succ_pos as.length) hbound))
    cases has with
    | nil =>
      simp only [List.intercalate_singleton, separated?, ha rest hstop, Option.bind_eq_bind,
        Option.bind_some, hend]
      rfl
    | cons hb hbs =>
      have hrest := ih (List.cons_ne_nil _ _) (Nat.le_of_succ_le_succ hbound)
      simp only [List.intercalate_cons_cons, List.append_assoc, separated?, ha _ (hseparator _),
        Option.bind_eq_bind, Option.bind_some, literal?_append, hrest]
      rfl

theorem length_le_intercalate {sep : List Char} (hsep : sep ≠ []) (parts : List (List Char)) :
    parts.length ≤ (sep.intercalate parts).length + 1 := by
  induction parts with
  | nil => exact Nat.zero_le _
  | cons part rest ih =>
    cases rest with
    | nil => simp
    | cons next rest =>
      have hpos := List.length_pos_iff.mpr hsep
      rw [List.intercalate_cons_cons, List.length_append, List.length_append, List.length_cons]
      omega

/-- A list of pieces is read as the list of their values when the separator stops an item and does
not follow the last one. -/
theorem readsAs_list (separator : String) (hne : separator.toList ≠ [])
    (hseparator : ∀ text, stop (separator.toList ++ text)) {texts : List (List Char)}
    {as : List α} (h : List.Forall₂ (ReadsAs item? stop) texts as) (has : as ≠ []) :
    ReadsAs (list? item? separator) (fun rest ↦ stop rest ∧ literal? separator rest = none)
      (separator.toList.intercalate texts) as := by
  rintro rest ⟨hstop, hend⟩
  refine complete_separated? hseparator hstop hend h has ?_
  have hlength := length_le_intercalate hne texts
  rw [h.length_eq] at hlength
  rw [List.length_append]
  omega

theorem reads_list (h : Reads item? good write stop) {separator : String}
    (hne : separator.toList ≠ []) (hseparator : ∀ text, stop (separator.toList ++ text)) :
    Reads (list? item? separator) (fun as ↦ as ≠ [] ∧ ∀ a ∈ as, good a)
      (fun as ↦ separator.toList.intercalate (as.map write))
      (fun rest ↦ stop rest ∧ literal? separator rest = none) where
  sound := sound_separated? h separator
  complete := by
    rintro as ⟨has, hgood⟩
    refine readsAs_list separator hne hseparator (List.forall₂_map_left_iff.mpr ?_) has
    exact List.forall₂_same.mpr fun a ha ↦ h.complete (hgood a ha)

end Lists

end RowFilter.Sql
