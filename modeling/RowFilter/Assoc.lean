/-!
Association lists. Two orders occur: members in order of arrival, where a later value for a known
key keeps the key's place, and entries in ascending order of their keys. `alter` and `alterSorted`
are the two ways of changing one entry; everything else is a special case.
-/

set_option autoImplicit false

namespace RowFilter.Assoc

variable {κ β : Type}

/-- The value of the first entry with the key. -/
def get? [DecidableEq κ] (key : κ) : List (κ × β) → Option β
  | [] => none
  | (k, b) :: rest => if k = key then some b else get? key rest

/-- Replaces the value under the key, in its place, or appends a new entry. -/
def alter [DecidableEq κ] (key : κ) (f : Option β → β) : List (κ × β) → List (κ × β)
  | [] => [(key, f none)]
  | (k, b) :: rest => if k = key then (k, f (some b)) :: rest else (k, b) :: alter key f rest

/-- A known key keeps its place and takes the new value. -/
def put [DecidableEq κ] (key : κ) (value : β) (entries : List (κ × β)) : List (κ × β) :=
  alter key (fun _ ↦ value) entries

/-- Members in order of arrival, each key once: the first place and the last value. -/
def ofMembers [DecidableEq κ] (members : List (κ × β)) : List (κ × β) :=
  members.foldl (fun entries m ↦ put m.1 m.2 entries) []

/-- Replaces the value under the key, or adds an entry where the ascending order has its place. -/
def alterSorted [DecidableEq κ] [LT κ] [DecidableLT κ] (key : κ) (f : Option β → β) :
    List (κ × β) → List (κ × β)
  | [] => [(key, f none)]
  | (k, b) :: rest =>
    if k < key then (k, b) :: alterSorted key f rest
    else if k = key then (k, f (some b)) :: rest
    else (key, f none) :: (k, b) :: rest

@[simp] theorem get?_nil [DecidableEq κ] (key : κ) : get? key ([] : List (κ × β)) = none := rfl

theorem get?_alter_self [DecidableEq κ] (key : κ) (f : Option β → β) (entries : List (κ × β)) :
    get? key (alter key f entries) = some (f (get? key entries)) := by
  induction entries with
  | nil => simp [alter, get?]
  | cons e rest ih => by_cases h : e.1 = key <;> simp [alter, get?, h, ih]

theorem get?_alter_of_ne [DecidableEq κ] {key other : κ} (h : other ≠ key) (f : Option β → β)
    (entries : List (κ × β)) : get? other (alter key f entries) = get? other entries := by
  induction entries with
  | nil => simp [alter, get?, Ne.symm h]
  | cons e rest ih =>
    by_cases hk : e.1 = key
    · simp [alter, get?, hk, Ne.symm h]
    · by_cases ho : e.1 = other <;> simp [alter, get?, hk, ho, ih, h]

/-- Changing an entry adds its key at the end when it is new and moves no other. -/
theorem keys_alter [DecidableEq κ] (key : κ) (f : Option β → β) (entries : List (κ × β)) :
    (alter key f entries).map Prod.fst =
      if key ∈ entries.map Prod.fst then entries.map Prod.fst
      else entries.map Prod.fst ++ [key] := by
  induction entries with
  | nil => simp [alter]
  | cons e rest ih =>
    by_cases hk : e.1 = key
    · simp [alter, hk]
    · have : key ≠ e.1 := fun h ↦ hk h.symm
      by_cases hm : key ∈ rest.map Prod.fst <;> simp_all [alter]

theorem nodup_keys_put [DecidableEq κ] {entries : List (κ × β)}
    (h : (entries.map Prod.fst).Nodup) (key : κ) (value : β) :
    ((put key value entries).map Prod.fst).Nodup := by
  rw [put, keys_alter]
  split
  · exact h
  · rename_i hmem
    rw [List.nodup_append]
    refine ⟨h, List.pairwise_singleton _ key, fun a ha b hb hab ↦ hmem ?_⟩
    rw [← List.mem_singleton.mp hb, ← hab]
    exact ha

theorem get?_put [DecidableEq κ] (key other : κ) (value : β) (entries : List (κ × β)) :
    get? other (put key value entries) =
      if other = key then some value else get? other entries := by
  split
  · rename_i h
    rw [h]
    exact get?_alter_self key _ entries
  · rename_i h
    exact get?_alter_of_ne h _ entries

theorem mem_of_get?_eq_some [DecidableEq κ] {key : κ} {entries : List (κ × β)} {b : β}
    (h : get? key entries = some b) : (key, b) ∈ entries := by
  induction entries with
  | nil => cases h
  | cons e rest ih =>
    unfold get? at h
    split at h
    · rename_i hkey
      cases h
      subst hkey
      exact List.mem_cons_self
    · exact List.mem_cons_of_mem _ (ih h)

/-- With distinct keys, an entry is what is found under its key. -/
theorem get?_eq_some_iff_mem [DecidableEq κ] {entries : List (κ × β)}
    (h : (entries.map Prod.fst).Nodup) {key : κ} {b : β} :
    get? key entries = some b ↔ (key, b) ∈ entries := by
  refine ⟨mem_of_get?_eq_some, fun hmem ↦ ?_⟩
  induction entries with
  | nil => cases hmem
  | cons e rest ih =>
    rw [List.map_cons, List.nodup_cons] at h
    obtain ⟨k, c⟩ := e
    unfold get?
    rcases List.mem_cons.mp hmem with heq | hmem
    · cases heq
      rw [if_pos rfl]
    · have hne : k ≠ key := fun hk ↦ h.1 (List.mem_map.mpr ⟨_, hmem, hk.symm⟩)
      rw [if_neg hne]
      exact ih h.2 hmem

/-- Where only the last entry can have the key, a change makes or alters that entry. -/
theorem alter_behind [DecidableEq κ] {key : κ} {entries : List (κ × β)}
    (h : ∀ e ∈ entries, e.1 ≠ key) (f : Option β → β) (last : Option β) :
    alter key f (entries ++ last.toList.map fun b ↦ (key, b)) = entries ++ [(key, f last)] := by
  induction entries with
  | nil => cases last <;> simp [alter]
  | cons e rest ih =>
    obtain ⟨he, hrest⟩ := List.forall_mem_cons.mp h
    simp [alter, he, ih hrest]

theorem alterSorted_behind [DecidableEq κ] [LT κ] [DecidableLT κ] {key : κ}
    (hirrefl : ¬ key < key) {entries : List (κ × β)} (h : ∀ e ∈ entries, e.1 < key)
    (f : Option β → β) (last : Option β) :
    alterSorted key f (entries ++ last.toList.map fun b ↦ (key, b)) =
      entries ++ [(key, f last)] := by
  induction entries with
  | nil => cases last <;> simp [alterSorted, hirrefl]
  | cons e rest ih =>
    obtain ⟨he, hrest⟩ := List.forall_mem_cons.mp h
    simp [alterSorted, he, ih hrest]

theorem alter_ne_nil [DecidableEq κ] (key : κ) (f : Option β → β) (entries : List (κ × β)) :
    alter key f entries ≠ [] := by
  cases entries with
  | nil => simp [alter]
  | cons e rest => simp only [alter]; split <;> simp

theorem alterSorted_ne_nil [DecidableEq κ] [LT κ] [DecidableLT κ] (key : κ) (f : Option β → β)
    (entries : List (κ × β)) : alterSorted key f entries ≠ [] := by
  cases entries with
  | nil => simp [alterSorted]
  | cons e rest =>
    simp only [alterSorted]
    split
    · simp
    · split <;> simp

end RowFilter.Assoc
