import Mathlib.Data.List.Forall2
import RowFilter.Proofs.Text.Utf8
import RowFilter.QueryString.Form

/-!
How names and values are spelled in a query string. A byte may always be written as a percent sign
with two digits and a space as a plus sign, and a character that has no meaning of its own may stand
for itself. Whatever spelling is taken, the pairs are read back.
-/

set_option autoImplicit false

namespace RowFilter.QueryString

/-! ### One name or value -/

/-- The bytes of a text. -/
def textBytes (text : String) : List UInt8 := text.toList.flatMap String.utf8EncodeChar

/-- A part of a piece spells a byte sequence. The reserved characters are those that would end the
part; they cannot stand for themselves. -/
inductive Spells (reserved : List Char) : List Char → List UInt8 → Prop
  | nil : Spells reserved [] []
  | plus {part : List Char} {bs : List UInt8} (rest : Spells reserved part bs) :
      Spells reserved ('+' :: part) (0x20 :: bs)
  | percent {high low : Char} {h l : Nat} {part : List Char} {bs : List UInt8}
      (hhigh : Text.hexValue? high = some h) (hlow : Text.hexValue? low = some l)
      (rest : Spells reserved part bs) :
      Spells reserved ('%' :: high :: low :: part) (UInt8.ofNat (16 * h + l) :: bs)
  | itself {c : Char} {part : List Char} {bs : List UInt8} (hplus : c ≠ '+') (hpercent : c ≠ '%')
      (hreserved : c ∉ reserved) (rest : Spells reserved part bs) :
      Spells reserved (c :: part) (String.utf8EncodeChar c ++ bs)

variable {reserved part : List Char}

theorem bytes_percent {high low : Char} {h l : Nat} (hhigh : Text.hexValue? high = some h)
    (hlow : Text.hexValue? low = some l) (rest : List Char) :
    bytes ('%' :: high :: low :: rest) = UInt8.ofNat (16 * h + l) :: bytes rest := by
  simp [bytes, hhigh, hlow]

theorem bytes_itself {c : Char} (hplus : c ≠ '+') (hpercent : c ≠ '%') (rest : List Char) :
    bytes (c :: rest) = String.utf8EncodeChar c ++ bytes rest := by
  rw [bytes.eq_def]
  split <;> simp_all

theorem bytes_of_spells {bs : List UInt8} (h : Spells reserved part bs) : bytes part = bs := by
  induction h with
  | nil => rfl
  | plus rest ih => rw [bytes, ih]
  | percent hhigh hlow rest ih => rw [bytes_percent hhigh hlow, ih]
  | itself hplus hpercent hreserved rest ih => rw [bytes_itself hplus hpercent, ih]

theorem component_of_spells {text : String} (h : Spells reserved part (textBytes text)) :
    component part = text := by
  rw [component, bytes_of_spells h, textBytes, Text.Utf8.decode_flatMap_utf8EncodeChar,
    String.ofList_toList]

/-- A reserved character does not occur, not even inside an escape. -/
theorem not_mem_of_spells {bs : List UInt8} (h : Spells reserved part bs) {c : Char}
    (hc : c ∈ reserved) (hplus : c ≠ '+') (hpercent : c ≠ '%')
    (hdigit : Text.hexValue? c = none) : c ∉ part := by
  induction h with
  | nil => exact List.not_mem_nil
  | plus rest ih => simpa [hplus] using ih
  | @percent high low _ _ _ _ hhigh hlow rest ih =>
    have hneHigh : c ≠ high := by rintro rfl; simp [hdigit] at hhigh
    have hneLow : c ≠ low := by rintro rfl; simp [hdigit] at hlow
    simp [hpercent, hneHigh, hneLow, ih]
  | @itself other _ _ _ _ hreserved rest ih =>
    have hne : c ≠ other := by rintro rfl; exact hreserved hc
    simp [hne, ih]

/-- Whether a part spells anything: its percent signs stand before two digits and nothing reserved
stands for itself. -/
def isSpelled (reserved : List Char) : List Char → Bool
  | [] => true
  | '+' :: rest => isSpelled reserved rest
  | '%' :: high :: low :: rest =>
    (Text.hexValue? high).isSome && (Text.hexValue? low).isSome && isSpelled reserved rest
  | c :: rest => c != '%' && !reserved.contains c && isSpelled reserved rest

theorem spells_bytes (h : isSpelled reserved part = true) : Spells reserved part (bytes part) := by
  fun_induction isSpelled reserved part with
  | case1 => exact .nil
  | case2 rest ih => exact .plus (ih h)
  | case3 high low rest ih =>
    simp only [Bool.and_eq_true, Option.isSome_iff_exists] at h
    obtain ⟨⟨⟨x, hx⟩, y, hy⟩, hrest⟩ := h
    exact bytes_percent hx hy rest ▸ .percent hx hy (ih hrest)
  | case4 c rest hplus hescape ih =>
    simp only [Bool.and_eq_true, bne_iff_ne, Bool.not_eq_true', List.contains_eq_mem,
      decide_eq_false_iff_not] at h
    exact bytes_itself hplus h.1.1 rest ▸ .itself hplus h.1.1 h.1.2 (ih h.2)

/-- Every byte as an escape. -/
def escape (bs : List UInt8) : List Char :=
  bs.flatMap fun b ↦ ['%', Text.hexDigit (b.toNat / 16), Text.hexDigit (b.toNat % 16)]

theorem spells_escape (reserved : List Char) (bs : List UInt8) :
    Spells reserved (escape bs) bs := by
  induction bs with
  | nil => exact .nil
  | cons b bs ih =>
    have hb : b.toNat < 256 := b.toNat_lt
    have hbyte : UInt8.ofNat (16 * (b.toNat / 16) + b.toNat % 16) = b := by
      rw [Nat.div_add_mod, UInt8.ofNat_toNat]
    have h := Spells.percent (Text.hexValue?_hexDigit (b.toNat / 16) (by omega))
      (Text.hexValue?_hexDigit (b.toNat % 16) (by omega)) ih
    rwa [hbyte] at h

/-! ### Pairs -/

/-- A piece spells a pair. The first equals sign ends the name and the value may hold others. -/
def SpellsPair (piece : List Char) (pair : String × String) : Prop :=
  ∃ name value, piece = name ++ '=' :: value ∧
    Spells ['&', '='] name (textBytes pair.1) ∧ Spells ['&'] value (textBytes pair.2)

theorem pairOf_of_spellsPair {piece : List Char} {pair : String × String}
    (h : SpellsPair piece pair) : pairOf piece = pair := by
  obtain ⟨name, value, rfl, hname, hvalue⟩ := h
  have hequals : ∀ c ∈ name, (c != '=') = true := by
    intro c hc
    have hnot : '=' ∉ name :=
      not_mem_of_spells hname (by decide) (by decide) (by decide) (by decide)
    exact bne_iff_ne.mpr fun heq ↦ hnot (heq ▸ hc)
  have htake : (name ++ '=' :: value).takeWhile (· != '=') = name := by
    rw [List.takeWhile_append_of_pos hequals]
    simp
  have hdrop : (name ++ '=' :: value).dropWhile (· != '=') = '=' :: value := by
    rw [List.dropWhile_append_of_pos hequals]
    simp
  rw [pairOf, htake, hdrop, List.drop_one, List.tail_cons, component_of_spells hname,
    component_of_spells hvalue]

theorem ampersand_not_mem_of_spellsPair {piece : List Char} {pair : String × String}
    (h : SpellsPair piece pair) : '&' ∉ piece := by
  obtain ⟨name, value, rfl, hname, hvalue⟩ := h
  have hinName : '&' ∉ name :=
    not_mem_of_spells hname (by decide) (by decide) (by decide) (by decide)
  have hinValue : '&' ∉ value :=
    not_mem_of_spells hvalue (by decide) (by decide) (by decide) (by decide)
  simp [hinName, hinValue]

theorem spellsPair_of_isSpelled {name value : List Char} {pair : String × String}
    (hname : isSpelled ['&', '='] name = true ∧ bytes name = textBytes pair.1)
    (hvalue : isSpelled ['&'] value = true ∧ bytes value = textBytes pair.2) :
    SpellsPair (name ++ '=' :: value) pair :=
  ⟨name, value, rfl, hname.2 ▸ spells_bytes hname.1, hvalue.2 ▸ spells_bytes hvalue.1⟩

theorem exists_spellsPair (pair : String × String) : ∃ piece, SpellsPair piece pair :=
  ⟨_, _, _, rfl, spells_escape _ _, spells_escape _ _⟩

/-! ### Query strings -/

theorem splitAll_intercalate {separator : Char} {parts : List (List Char)} (hne : parts ≠ [])
    (h : ∀ part ∈ parts, separator ∉ part) :
    splitAll separator (List.intercalate [separator] parts) = parts := by
  induction parts with
  | nil => exact absurd rfl hne
  | cons part parts ih =>
    have hpart := h part List.mem_cons_self
    cases parts with
    | nil => rw [List.intercalate_singleton, splitAll_of_not_mem hpart]
    | cons next rest =>
      rw [List.intercalate_cons_cons, List.append_assoc, List.singleton_append,
        splitAll_append hpart, ih (List.cons_ne_nil _ _) fun p hp ↦ h p (List.mem_cons_of_mem _ hp)]

/-- A query string spells pairs one after another. A question mark in front is no part of the first
name, so a name that begins with one is escaped there or stands behind another one. -/
def SpellsPairs (query : String) (pairs : List (String × String)) : Prop :=
  ∃ parts, List.Forall₂ SpellsPair parts pairs ∧
    (query.toList = '?' :: List.intercalate ['&'] parts ∨
      query.toList = List.intercalate ['&'] parts ∧ query.toList.head? ≠ some '?')

/-- No piece that spells a pair is empty or holds a separator. -/
theorem solid_of_spellsPairs {parts : List (List Char)} {pairs : List (String × String)}
    (h : List.Forall₂ SpellsPair parts pairs) : ∀ part ∈ parts, part ≠ [] ∧ '&' ∉ part := by
  induction h with
  | nil => simp
  | @cons part _ _ _ hpart _ ih =>
    have hne : part ≠ [] := by
      obtain ⟨name, value, rfl, -⟩ := hpart
      simp
    exact List.forall_mem_cons.mpr ⟨⟨hne, ampersand_not_mem_of_spellsPair hpart⟩, ih⟩

theorem filter_splitAll_intercalate {parts : List (List Char)}
    (h : ∀ part ∈ parts, part ≠ [] ∧ '&' ∉ part) :
    (splitAll '&' (List.intercalate ['&'] parts)).filter (fun piece ↦ !piece.isEmpty) = parts := by
  cases parts with
  | nil => rfl
  | cons part rest =>
    rw [splitAll_intercalate (List.cons_ne_nil _ _) fun p hp ↦ (h p hp).2, List.filter_eq_self]
    intro p hp
    simpa using (h p hp).1

/-- Behind a question mark, or without one at the start, joined pieces are the pieces. -/
theorem pieces_of_intercalate {query : String} {parts : List (List Char)}
    (h : ∀ part ∈ parts, part ≠ [] ∧ '&' ∉ part)
    (hquery : query.toList = '?' :: List.intercalate ['&'] parts ∨
      query.toList = List.intercalate ['&'] parts ∧ query.toList.head? ≠ some '?') :
    pieces query = parts := by
  have hsplit := filter_splitAll_intercalate h
  unfold pieces
  rcases hquery with hmarked | ⟨hplain, hhead⟩
  · rw [hmarked]
    exact hsplit
  · split
    · rename_i heq
      exact absurd (congrArg List.head? heq) hhead
    · rw [hplain]
      exact hsplit

/-- The pairs that a query string spells are the ones that are read. -/
theorem map_pairOf_pieces {query : String} {pairs : List (String × String)}
    (h : SpellsPairs query pairs) : (pieces query).map pairOf = pairs := by
  obtain ⟨parts, hparts, hquery⟩ := h
  have hpieces : pieces query = parts :=
    pieces_of_intercalate (solid_of_spellsPairs hparts) hquery
  have hread : List.Forall₂ (· = ·) (parts.map pairOf) pairs :=
    List.forall₂_map_left_iff.mpr (hparts.imp fun _ _ ↦ pairOf_of_spellsPair)
  rw [hpieces]
  rwa [List.forall₂_eq_eq_eq] at hread

theorem exists_spellsPairs (pairs : List (String × String)) :
    ∃ query, SpellsPairs query pairs := by
  have hparts : ∃ parts, List.Forall₂ SpellsPair parts pairs := by
    induction pairs with
    | nil => exact ⟨[], .nil⟩
    | cons pair rest ih =>
      obtain ⟨piece, hpiece⟩ := exists_spellsPair pair
      obtain ⟨parts, hparts⟩ := ih
      exact ⟨piece :: parts, .cons hpiece hparts⟩
  obtain ⟨parts, hparts⟩ := hparts
  exact ⟨String.ofList ('?' :: List.intercalate ['&'] parts), parts, hparts,
    .inl String.toList_ofList⟩

end RowFilter.QueryString
