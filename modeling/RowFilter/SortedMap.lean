import RowFilter.Assoc

/-!
Finite maps from text, kept in ascending order of their keys. Texts compare by code point, which is
also the order of their UTF-8 bytes, so the entries always come out in byte order.
-/

set_option autoImplicit false

namespace RowFilter

/-- A finite map with text keys whose entries stand in ascending key order. -/
structure SortedMap (β : Type) where
  entries : List (String × β)
  ascending : entries.Pairwise (fun a b ↦ a.1 < b.1)

namespace SortedMap

variable {β : Type}

def empty : SortedMap β := ⟨[], List.Pairwise.nil⟩

def get? (m : SortedMap β) (key : String) : Option β := Assoc.get? key m.entries

theorem mem_alterSorted {key : String} {f : Option β → β} {entries : List (String × β)}
    {e : String × β} (h : e ∈ Assoc.alterSorted key f entries) :
    e.1 = key ∨ e ∈ entries := by
  induction entries with
  | nil => simp_all [Assoc.alterSorted]
  | cons d rest ih =>
    simp only [Assoc.alterSorted] at h
    split at h
    · rcases List.mem_cons.mp h with h | h
      · exact Or.inr (List.mem_cons.mpr (Or.inl h))
      · exact (ih h).imp_right fun h ↦ List.mem_cons_of_mem _ h
    · split at h
      · rename_i hk
        rcases List.mem_cons.mp h with h | h
        · exact Or.inl (by simp [h, hk])
        · exact Or.inr (List.mem_cons_of_mem _ h)
      · rcases List.mem_cons.mp h with h | h
        · exact Or.inl (by simp [h])
        · exact Or.inr h

theorem ascending_alterSorted (key : String) (f : Option β → β) {entries : List (String × β)}
    (h : entries.Pairwise (fun a b ↦ a.1 < b.1)) :
    (Assoc.alterSorted key f entries).Pairwise (fun a b ↦ a.1 < b.1) := by
  induction entries with
  | nil => simp [Assoc.alterSorted]
  | cons d rest ih =>
    obtain ⟨hd, hrest⟩ := List.pairwise_cons.mp h
    simp only [Assoc.alterSorted]
    split
    · rename_i hlt
      refine List.pairwise_cons.mpr ⟨fun e he ↦ ?_, ih hrest⟩
      rcases mem_alterSorted he with he | he
      · exact he ▸ hlt
      · exact hd e he
    · split
      · exact List.pairwise_cons.mpr ⟨hd, hrest⟩
      · rename_i hlt hne
        have hkey : key < d.1 := by
          rcases String.le_total d.1 key with hle | hle
          · exact absurd (String.le_antisymm hle (String.not_lt.mp hlt)) hne
          · exact String.not_le.mp fun hge ↦ hne (String.le_antisymm hge hle)
        refine List.pairwise_cons.mpr ⟨fun e he ↦ ?_, h⟩
        rcases List.mem_cons.mp he with rfl | he
        · exact hkey
        · exact String.lt_trans hkey (hd e he)

/-- Sets the value under the key. -/
def insert (m : SortedMap β) (key : String) (value : β) : SortedMap β :=
  ⟨Assoc.alterSorted key (fun _ ↦ value) m.entries, ascending_alterSorted key _ m.ascending⟩

/-- The map of the given members, the last value of each key winning. -/
def ofMembers (members : List (String × β)) : SortedMap β :=
  members.foldl (fun m e ↦ m.insert e.1 e.2) empty

theorem get?_insert_self (m : SortedMap β) (key : String) (value : β) :
    (m.insert key value).get? key = some value := by
  obtain ⟨entries, h⟩ := m
  simp only [insert, get?]
  clear h
  induction entries with
  | nil => simp [Assoc.alterSorted, Assoc.get?]
  | cons d rest ih =>
    simp only [Assoc.alterSorted]
    split
    · rename_i hlt
      have : d.1 ≠ key := fun h ↦ String.lt_irrefl key (h ▸ hlt)
      simp [Assoc.get?, this, ih]
    · split <;> simp_all [Assoc.get?]

theorem get?_insert_of_ne (m : SortedMap β) {key other : String} (h : other ≠ key) (value : β) :
    (m.insert key value).get? other = m.get? other := by
  obtain ⟨entries, hs⟩ := m
  simp only [insert, get?]
  clear hs
  induction entries with
  | nil => simp [Assoc.alterSorted, Assoc.get?, Ne.symm h]
  | cons d rest ih =>
    simp only [Assoc.alterSorted]
    split
    · simp [Assoc.get?, ih]
    · split
      · rename_i hk
        simp [Assoc.get?, hk, Ne.symm h]
      · simp [Assoc.get?, Ne.symm h]

theorem nodup_keys (m : SortedMap β) : (m.entries.map Prod.fst).Nodup := by
  refine List.pairwise_map.mpr (m.ascending.imp fun {a b} hlt heq ↦ ?_)
  rw [heq] at hlt
  exact String.lt_irrefl _ hlt

end SortedMap

end RowFilter
