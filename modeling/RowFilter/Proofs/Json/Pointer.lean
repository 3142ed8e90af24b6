import RowFilter.Decimal.Basic
import RowFilter.Json.Basic
import RowFilter.Json.Pointer
import RowFilter.QueryString.Form

/-!
Reading JSON pointers and following them. A pointer is read by splitting its text at the slashes and
undoing the escapes of each reference, first those of slashes and then those of tildes; in the other
order `~01` would become a slash. Reading undoes writing whatever the names are
(`Pointer.ofText?_text`), so different pointers have different texts. A reference leads to the
member of an object with its name, or to the item of an array whose index it writes.
-/

set_option autoImplicit false

namespace RowFilter

namespace Pointer

/-! ### Escapes -/

/-- Puts one character in the place of a pair of them, wherever the pair stands from left to
right. -/
def replacePair (first second single : Char) : List Char → List Char
  | [] => []
  | [c] => [c]
  | a :: b :: rest =>
    if a = first ∧ b = second then single :: replacePair first second single rest
    else a :: replacePair first second single (b :: rest)

/-- The reference that an escaped one stands for. -/
def unescape (reference : List Char) : String :=
  String.ofList (replacePair '~' '0' '~' (replacePair '~' '1' '/' reference))

theorem replacePair_cons_of_ne {first c : Char} (h : c ≠ first) (second single : Char)
    (rest : List Char) : replacePair first second single (c :: rest) =
      c :: replacePair first second single rest := by
  cases rest with
  | nil => rfl
  | cons d rest => rw [replacePair, if_neg fun hpair ↦ h hpair.1]

/-- With the slashes back, what is left are the escapes of tildes. -/
theorem replacePair_slash (cs : List Char) :
    replacePair '~' '1' '/' (cs.flatMap fun c ↦
        if c = '~' then ['~', '0'] else if c = '/' then ['~', '1'] else [c]) =
      cs.flatMap fun c ↦ if c = '~' then ['~', '0'] else [c] := by
  induction cs with
  | nil => rfl
  | cons c rest ih =>
    by_cases htilde : c = '~'
    · subst htilde
      simp [replacePair, replacePair_cons_of_ne, ih]
    · by_cases hslash : c = '/'
      · subst hslash
        simp [replacePair, ih]
      · simp [htilde, hslash, replacePair_cons_of_ne, ih]

theorem replacePair_tilde (cs : List Char) :
    replacePair '~' '0' '~' (cs.flatMap fun c ↦ if c = '~' then ['~', '0'] else [c]) = cs := by
  induction cs with
  | nil => rfl
  | cons c rest ih =>
    by_cases htilde : c = '~'
    · subst htilde
      simp [replacePair, ih]
    · simp [htilde, replacePair_cons_of_ne, ih]

theorem unescape_escape (reference : String) : unescape (escape reference).toList = reference := by
  rw [unescape, escape, String.toList_ofList, replacePair_slash, replacePair_tilde,
    String.ofList_toList]

theorem slash_notMem_escape (reference : String) : '/' ∉ (escape reference).toList := by
  rw [escape, String.toList_ofList, List.mem_flatMap]
  rintro ⟨c, -, hc⟩
  by_cases htilde : c = '~'
  · simp [htilde] at hc
  · by_cases hslash : c = '/'
    · simp [hslash] at hc
    · simp [htilde, hslash, Ne.symm hslash] at hc

/-! ### Texts -/

/-- Reads a pointer. Nothing stands before its first slash. -/
def ofText? (text : String) : Option Pointer :=
  match QueryString.splitAll '/' text.toList with
  | [] :: references => some (references.map unescape)
  | _ => none

theorem splitAll_append_text {part : List Char} (h : '/' ∉ part) (p : Pointer) :
    QueryString.splitAll '/' (part ++ p.text.toList) =
      part :: p.map fun reference ↦ (escape reference).toList := by
  induction p generalizing part with
  | nil =>
    rw [text, List.map_nil, String.join_nil, String.toList_empty, List.append_nil, List.map_nil]
    exact QueryString.splitAll_of_not_mem h
  | cons reference rest ih =>
    have htext : (text (reference :: rest)).toList =
        '/' :: ((escape reference).toList ++ (text rest).toList) := by
      simp [text]
    rw [htext, QueryString.splitAll_append h, ih (slash_notMem_escape reference), List.map_cons]

theorem ofText?_text (p : Pointer) : ofText? p.text = some p := by
  have hsplit := splitAll_append_text List.not_mem_nil p
  rw [List.nil_append] at hsplit
  have hread : (p.map fun reference ↦ (escape reference).toList).map unescape = p := by
    rw [List.map_map]
    exact List.map_id'' unescape_escape p
  simp only [ofText?, hsplit, hread]

example : ofText? "/a~1b//~01" = some ["a/b", "", "~1"] := by decide

theorem text_injective : Function.Injective text := by
  intro p q h
  have hread := ofText?_text p
  rw [h, ofText?_text q] at hread
  exact (Option.some.inj hread).symm

/-! ### Indices -/

/-- The index that a reference writes, in the one form in which a number is written. -/
def index? (reference : String) : Option Nat :=
  let i := Decimal.natOfDigits reference.toList
  if toString i = reference then some i else none

theorem index?_toString (i : Nat) : index? (toString i) = some i := by
  have hdigits : Decimal.natOfDigits (toString i).toList = i := by
    rw [Nat.toString_eq_repr, Nat.toList_repr, Decimal.natOfDigits_toDigits]
  simp only [index?, hdigits, if_true]

end Pointer

namespace Json

/-- The part of a container that a reference leads to. -/
def child? (reference : String) : Json → Option Json
  | .object members => Assoc.get? reference members
  | .array items => (Pointer.index? reference).bind fun i ↦ items[i]?
  | .scalar _ => none

/-- The value that a pointer leads to inside a document. -/
def resolve? : Pointer → Json → Option Json
  | [], value => some value
  | reference :: rest, value => (value.child? reference).bind (resolve? rest)

theorem child?_array (items : List Json) (i : Nat) :
    (Json.array items).child? (toString i) = items[i]? := by
  rw [child?, Pointer.index?_toString, Option.bind_some]

end Json

end RowFilter
