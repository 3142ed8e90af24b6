import Mathlib.Data.List.Induction
import Mathlib.Data.List.Nodup
import RowFilter.Assoc

/-!
Association lists seen through their keys. Changing an entry changes what is found under its key and
under no other; this holds of both orders, where entries in ascending order are those of slots. When
many entries are changed one after another, what is found under a key in the end depends on the
changes of this key alone (`get?_foldl_alter`).
-/

set_option autoImplicit false

namespace RowFilter.Assoc

variable {κ β : Type}

section Keys

variable [DecidableEq κ] {key : κ} {entries : List (κ × β)}

theorem get?_eq_none_iff : get? key entries = none ↔ ∀ e ∈ entries, e.1 ≠ key := by
  induction entries with
  | nil => simp
  | cons e rest ih =>
    by_cases h : e.1 = key
    · simp [get?, h]
    · simp [get?, h, ih]

theorem get?_eq_none_of_notMem (h : key ∉ entries.map Prod.fst) : get? key entries = none :=
  get?_eq_none_iff.mpr fun e he heq ↦ h (List.mem_map.mpr ⟨e, he, heq⟩)

theorem get?_append_of_ne {front : List (κ × β)} (h : ∀ e ∈ front, e.1 ≠ key)
    (entries : List (κ × β)) : get? key (front ++ entries) = get? key entries := by
  induction front with
  | nil => rfl
  | cons e rest ih =>
    obtain ⟨he, hrest⟩ := List.forall_mem_cons.mp h
    rw [List.cons_append, get?, if_neg he, ih hrest]

/-- A change under a key replaces the first entry of the key. -/
theorem alter_append_cons {front : List (κ × β)} (h : key ∉ front.map Prod.fst) (f : Option β → β)
    (b : β) (back : List (κ × β)) :
    alter key f (front ++ (key, b) :: back) = front ++ (key, f (some b)) :: back := by
  induction front with
  | nil => rw [List.nil_append, alter, if_pos rfl, List.nil_append]
  | cons e rest ih =>
    obtain ⟨hne, hrest⟩ := not_or.mp (mt List.mem_cons.mpr h)
    rw [List.cons_append, alter, if_neg (Ne.symm hne), ih hrest, List.cons_append]

/-- With distinct keys, what is found does not depend on the order of the entries. -/
theorem get?_eq_of_perm {entries' : List (κ × β)} (h : (entries.map Prod.fst).Nodup)
    (hperm : entries.Perm entries') (key : κ) : get? key entries = get? key entries' := by
  have h' : (entries'.map Prod.fst).Nodup := (hperm.map Prod.fst).nodup_iff.mp h
  refine Option.ext fun b ↦ ?_
  rw [get?_eq_some_iff_mem h, get?_eq_some_iff_mem h', hperm.mem_iff]

/-- With distinct keys, the entries are what is found under the keys, up to their order. -/
theorem perm_of_get?_eq {entries' : List (κ × β)} (h : (entries.map Prod.fst).Nodup)
    (h' : (entries'.map Prod.fst).Nodup) (hsame : ∀ key, get? key entries = get? key entries') :
    entries.Perm entries' := by
  refine (List.perm_ext_iff_of_nodup h.of_map h'.of_map).mpr fun e ↦ ?_
  rw [← get?_eq_some_iff_mem h, ← get?_eq_some_iff_mem h', hsame]

theorem get?_map_values {γ : Type} (f : β → γ) (entries : List (κ × β)) :
    get? key (entries.map fun e ↦ (e.1, f e.2)) = (get? key entries).map f := by
  induction entries with
  | nil => rfl
  | cons e rest ih => by_cases h : e.1 = key <;> simp [get?, h, ih]

theorem get?_alter (key other : κ) (f : Option β → β) (entries : List (κ × β)) :
    get? other (alter key f entries) =
      if other = key then some (f (get? key entries)) else get? other entries := by
  split
  · rename_i h
    rw [h]
    exact get?_alter_self key f entries
  · rename_i h
    exact get?_alter_of_ne h f entries

theorem mem_keys_alter {other : κ} {f : Option β → β} :
    other ∈ (alter key f entries).map Prod.fst ↔ other = key ∨ other ∈ entries.map Prod.fst := by
  rw [keys_alter]
  split
  · rename_i hmem
    constructor
    · exact .inr
    · rintro (rfl | h)
      · exact hmem
      · exact h
  · rw [List.mem_append, List.mem_singleton, or_comm]

/-- A change matters for what it makes of what is found under its key. -/
theorem alter_congr {f g : Option β → β} (h : f (get? key entries) = g (get? key entries)) :
    alter key f entries = alter key g entries := by
  induction entries with
  | nil => exact congrArg (fun b ↦ [(key, b)]) h
  | cons e rest ih =>
    obtain ⟨k, b⟩ := e
    unfold alter
    unfold get? at h
    split
    · rename_i hk
      rw [if_pos hk] at h
      rw [h]
    · rename_i hk
      rw [if_neg hk] at h
      rw [ih h]

/-- An entry after a change is an old one or the one that was changed. -/
theorem mem_alter {f : Option β → β} {e : κ × β} (h : e ∈ alter key f entries) :
    e ∈ entries ∨ ∃ old, e = (key, f old) ∧ ∀ b ∈ old, (key, b) ∈ entries := by
  induction entries with
  | nil =>
    rw [alter, List.mem_singleton] at h
    exact .inr ⟨none, h, by simp⟩
  | cons d rest ih =>
    obtain ⟨k, b⟩ := d
    unfold alter at h
    split at h
    · rename_i hk
      subst hk
      rcases List.mem_cons.mp h with rfl | h
      · exact .inr ⟨some b, rfl, by simp⟩
      · exact .inl (List.mem_cons_of_mem _ h)
    · rcases List.mem_cons.mp h with rfl | h
      · exact .inl List.mem_cons_self
      · rcases ih h with h | ⟨old, rfl, hold⟩
        · exact .inl (List.mem_cons_of_mem _ h)
        · exact .inr ⟨old, rfl, fun b hb ↦ List.mem_cons_of_mem _ (hold b hb)⟩

theorem mem_alterSorted [LT κ] [DecidableLT κ] {f : Option β → β} {e : κ × β}
    (h : e ∈ alterSorted key f entries) :
    e ∈ entries ∨ ∃ old, e = (key, f old) ∧ ∀ b ∈ old, (key, b) ∈ entries := by
  induction entries with
  | nil =>
    rw [alterSorted, List.mem_singleton] at h
    exact .inr ⟨none, h, by simp⟩
  | cons d rest ih =>
    obtain ⟨k, b⟩ := d
    unfold alterSorted at h
    split at h
    · rcases List.mem_cons.mp h with rfl | h
      · exact .inl List.mem_cons_self
      · rcases ih h with h | ⟨old, rfl, hold⟩
        · exact .inl (List.mem_cons_of_mem _ h)
        · exact .inr ⟨old, rfl, fun b hb ↦ List.mem_cons_of_mem _ (hold b hb)⟩
    · split at h
      · rename_i hk
        subst hk
        rcases List.mem_cons.mp h with rfl | h
        · exact .inr ⟨some b, rfl, by simp⟩
        · exact .inl (List.mem_cons_of_mem _ h)
      · rcases List.mem_cons.mp h with rfl | h
        · exact .inr ⟨none, rfl, by simp⟩
        · exact .inl h

/-- What holds of all values still holds after a change that makes such a value of nothing and of
every such value. -/
theorem forall_mem_alter {p : β → Prop} {f : Option β → β}
    (hf : ∀ old, (∀ b ∈ old, p b) → p (f old)) (h : ∀ e ∈ entries, p e.2) :
    ∀ e ∈ alter key f entries, p e.2 := by
  intro e he
  rcases mem_alter he with he | ⟨old, rfl, hold⟩
  · exact h e he
  · exact hf old fun b hb ↦ h _ (hold b hb)

theorem forall_mem_alterSorted [LT κ] [DecidableLT κ] {p : β → Prop} {f : Option β → β}
    (hf : ∀ old, (∀ b ∈ old, p b) → p (f old)) (h : ∀ e ∈ entries, p e.2) :
    ∀ e ∈ alterSorted key f entries, p e.2 := by
  intro e he
  rcases mem_alterSorted he with he | ⟨old, rfl, hold⟩
  · exact h e he
  · exact hf old fun b hb ↦ h _ (hold b hb)

theorem nodup_keys_alter (h : (entries.map Prod.fst).Nodup) (f : Option β → β) :
    ((alter key f entries).map Prod.fst).Nodup := by
  rw [keys_alter]
  split
  · exact h
  · rename_i hmem
    exact List.nodup_append_comm.mp (List.nodup_cons.mpr ⟨hmem, h⟩)

/-- Of many changes, those of other keys do not matter to what is found under a key. -/
theorem get?_foldl_alter {α : Type} (keyOf : α → κ) (change : α → Option β → β) (as : List α)
    (entries : List (κ × β)) (key : κ) :
    get? key (as.foldl (fun entries a ↦ alter (keyOf a) (change a) entries) entries) =
      (as.filter fun a ↦ keyOf a = key).foldl (fun b a ↦ some (change a b)) (get? key entries) := by
  induction as generalizing entries with
  | nil => rfl
  | cons a rest ih =>
    rw [List.foldl_cons, ih, get?_alter]
    by_cases h : keyOf a = key
    · rw [if_pos h.symm, List.filter_cons_of_pos (by simpa using h), List.foldl_cons, h]
    · rw [if_neg (Ne.symm h), List.filter_cons_of_neg (by simpa using h)]

theorem nodup_keys_foldl_alter {α : Type} (keyOf : α → κ) (change : α → Option β → β) (as : List α)
    (h : (entries.map Prod.fst).Nodup) :
    ((as.foldl (fun entries a ↦ alter (keyOf a) (change a) entries) entries).map
      Prod.fst).Nodup := by
  induction as generalizing entries with
  | nil => exact h
  | cons a rest ih => exact ih (nodup_keys_alter h _)

/-- Entries with distinct keys are taken over as they are. -/
theorem ofMembers_eq_self (h : (entries.map Prod.fst).Nodup) : ofMembers entries = entries := by
  induction entries using List.reverseRecOn with
  | nil => rfl
  | append_singleton init last ih =>
    rw [List.map_append] at h
    obtain ⟨hinit, -, hlast⟩ := List.nodup_append.mp h
    have hne : ∀ e ∈ init, e.1 ≠ last.1 := fun e he ↦
      hlast e.1 (List.mem_map_of_mem he) last.1 (by simp)
    have hbehind := alter_behind hne (fun _ ↦ last.2) none
    rw [Option.toList_none, List.map_nil, List.append_nil] at hbehind
    rw [ofMembers] at ih
    rw [ofMembers, List.foldl_append, ih hinit]
    exact hbehind

theorem eraseDups_append_singleton (keys : List κ) (key : κ) :
    (keys ++ [key]).eraseDups = if key ∈ keys then keys.eraseDups else keys.eraseDups ++ [key] := by
  rw [List.eraseDups_append]
  split
  · rename_i hmem
    simp [List.removeAll, hmem]
  · rename_i hmem
    simp [List.removeAll, hmem]
    rfl

/-- After many changes the keys stand in the order in which they were first changed. -/
theorem keys_foldl_alter {α : Type} (keyOf : α → κ) (change : α → Option β → β) (as : List α) :
    (as.foldl (fun entries a ↦ alter (keyOf a) (change a) entries) []).map Prod.fst =
      (as.map keyOf).eraseDups := by
  induction as using List.reverseRecOn with
  | nil => rfl
  | append_singleton init a ih =>
    rw [List.foldl_append, List.foldl_cons, List.foldl_nil, keys_alter, ih, List.map_append,
      List.map_singleton, eraseDups_append_singleton]
    simp only [List.mem_eraseDups]

end Keys

/-! ### Ascending keys -/

/-- The order in which slots stand. -/
def Ascending (entries : List (Nat × β)) : Prop := entries.Pairwise fun a b ↦ a.1 < b.1

section Ascending

variable {entries : List (Nat × β)} {key : Nat}

theorem Ascending.alterSorted (h : Ascending entries) (f : Option β → β) :
    Ascending (Assoc.alterSorted key f entries) := by
  induction entries with
  | nil => exact List.pairwise_singleton _ _
  | cons d rest ih =>
    obtain ⟨hd, hrest⟩ := List.pairwise_cons.mp h
    unfold Assoc.alterSorted
    split
    · rename_i hlt
      refine List.pairwise_cons.mpr ⟨fun e he ↦ ?_, ih hrest⟩
      rcases mem_alterSorted he with he | ⟨_, rfl, -⟩
      · exact hd e he
      · exact hlt
    · split
      · exact List.pairwise_cons.mpr ⟨hd, hrest⟩
      · rename_i hnlt hne
        have hkey : key < d.1 := by omega
        refine List.pairwise_cons.mpr ⟨fun e he ↦ ?_, h⟩
        rcases List.mem_cons.mp he with rfl | he
        · exact hkey
        · exact Nat.lt_trans hkey (hd e he)

/-- In front of the first key there is nothing. -/
theorem Ascending.get?_cons_eq_none {e : Nat × β} (h : Ascending (e :: entries))
    (hlt : key < e.1) : get? key (e :: entries) = none := by
  refine get?_eq_none_iff.mpr fun d hd ↦ ?_
  rcases List.mem_cons.mp hd with rfl | hd
  · exact Nat.ne_of_gt hlt
  · exact Nat.ne_of_gt (Nat.lt_trans hlt ((List.pairwise_cons.mp h).1 d hd))

theorem get?_alterSorted (h : Ascending entries) (other : Nat) (f : Option β → β) :
    get? other (alterSorted key f entries) =
      if other = key then some (f (get? key entries)) else get? other entries := by
  induction entries with
  | nil => by_cases hother : other = key <;> simp [alterSorted, get?, hother, Ne.symm]
  | cons d rest ih =>
    obtain ⟨k, b⟩ := d
    obtain ⟨hd, hrest⟩ := List.pairwise_cons.mp h
    unfold alterSorted
    split
    · rename_i hlt
      have hne : k ≠ key := Nat.ne_of_lt hlt
      simp only [get?, ih hrest, if_neg hne]
      by_cases hother : other = key
      · simp [hother, hne]
      · simp [hother]
    · split
      · rename_i hk
        subst hk
        by_cases hother : other = k
        · simp [get?, hother]
        · simp [get?, hother, Ne.symm hother]
      · rename_i hnlt hne
        have hlt : key < k := Nat.lt_of_le_of_ne (Nat.le_of_not_lt hnlt) (Ne.symm hne)
        have hnone : get? key ((k, b) :: rest) = none := h.get?_cons_eq_none hlt
        rw [hnone]
        by_cases hother : other = key
        · simp [get?, hother]
        · simp [get?, hother, Ne.symm hother]

theorem alterSorted_congr (hascending : Ascending entries) {f g : Option β → β}
    (h : f (get? key entries) = g (get? key entries)) :
    alterSorted key f entries = alterSorted key g entries := by
  induction entries with
  | nil => exact congrArg (fun b ↦ [(key, b)]) h
  | cons e rest ih =>
    obtain ⟨k, b⟩ := e
    obtain ⟨-, hrest⟩ := List.pairwise_cons.mp hascending
    unfold alterSorted
    split
    · rename_i hlt
      rw [get?, if_neg (Nat.ne_of_lt hlt)] at h
      rw [ih hrest h]
    · split
      · rename_i hk
        rw [get?, if_pos hk] at h
        rw [h]
      · rename_i hnlt hne
        have hlt : key < k := Nat.lt_of_le_of_ne (Nat.le_of_not_lt hnlt) (Ne.symm hne)
        rw [hascending.get?_cons_eq_none hlt] at h
        rw [h]

theorem Ascending.alterSorted_append_cons {front back : List (Nat × β)} {b : β}
    (h : Ascending (front ++ (key, b) :: back)) (f : Option β → β) :
    Assoc.alterSorted key f (front ++ (key, b) :: back) = front ++ (key, f (some b)) :: back := by
  induction front with
  | nil =>
    rw [List.nil_append, Assoc.alterSorted, if_neg (Nat.lt_irrefl key), if_pos rfl,
      List.nil_append]
  | cons e rest ih =>
    obtain ⟨hbehind, hrest⟩ := List.pairwise_cons.mp h
    have hlt : e.1 < key := hbehind (key, b) (by simp)
    rw [List.cons_append, Assoc.alterSorted, if_pos hlt, ih hrest, List.cons_append]

theorem Ascending.nodup_keys (h : Ascending entries) : (entries.map Prod.fst).Nodup :=
  List.pairwise_map.mpr (h.imp Nat.ne_of_lt)

end Ascending

end RowFilter.Assoc
