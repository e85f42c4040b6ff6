/-!
# Ordered entries

Key-value pairs in the order in which the keys were first set. Setting a key again
replaces its value and keeps its place.
-/

namespace Phrasebook

/-- Pairs of keys and values, in order. -/
abbrev Entries (α : Type) := List (String × α)

namespace Entries

variable {α : Type}

/-- Set the value of a key: in its place if the key is there, else at the end. -/
def set (key : String) (value : α) : Entries α → Entries α
  | [] => [(key, value)]
  | (k, v) :: rest => if k = key then (key, value) :: rest else (k, v) :: set key value rest

def get? (key : String) (entries : Entries α) : Option α := entries.lookup key

def setAll (entries : Entries α) (pairs : List (String × α)) : Entries α :=
  pairs.foldl (fun entries (key, value) => entries.set key value) entries

def keys (entries : Entries α) : List String := entries.map Prod.fst

theorem get?_cons (k : String) (v : α) (rest : List (String × α)) (other : String) :
    get? other ((k, v) :: rest) = if other = k then some v else get? other rest := by
  simp only [get?, List.lookup_cons]
  by_cases h : other = k
  · simp [h]
  · simp [h, beq_eq_false_iff_ne.mpr h]

theorem get?_set (entries : Entries α) (key other : String) (value : α) :
    (entries.set key value).get? other =
      if other = key then some value else entries.get? other := by
  induction entries with
  | nil => simp only [set, get?_cons]
  | cons entry rest ih =>
      obtain ⟨k, v⟩ := entry
      simp only [set]
      by_cases hk : k = key
      · subst hk
        simp only [↓reduceIte, get?_cons]
        by_cases h : other = k <;> simp [h]
      · simp only [hk, ↓reduceIte, get?_cons, ih]
        by_cases h : other = k
        · subst h
          simp [hk]
        · simp [h]

theorem keys_set_of_mem {entries : Entries α} {key : String} (value : α) (h : key ∈ entries.keys) :
    (entries.set key value).keys = entries.keys := by
  induction entries with
  | nil => simp [keys] at h
  | cons entry rest ih =>
      obtain ⟨k, v⟩ := entry
      by_cases hk : k = key
      · simp [set, keys, hk]
      · have : key ∈ keys rest := by
          simp only [keys, List.map_cons, List.mem_cons] at h ⊢
          exact h.resolve_left fun e => hk e.symm
        have ih := ih this
        simp_all [set, keys]

theorem set_of_not_mem {entries : Entries α} {key : String} (value : α)
    (h : key ∉ entries.keys) : entries.set key value = entries ++ [(key, value)] := by
  induction entries with
  | nil => rfl
  | cons entry rest ih =>
      obtain ⟨k, v⟩ := entry
      simp only [keys, List.map_cons, List.mem_cons, not_or] at h
      simp only [set, List.cons_append]
      rw [if_neg fun e => h.1 e.symm, ih h.2]

theorem keys_set (entries : Entries α) (key : String) (value : α) :
    (entries.set key value).keys =
      if key ∈ entries.keys then entries.keys else entries.keys ++ [key] := by
  split
  · rename_i h
    exact keys_set_of_mem value h
  · rename_i h
    rw [set_of_not_mem value h, keys, List.map_append]
    rfl

/-! ## Distinct keys -/

theorem nodup_keys_nil : (keys ([] : Entries α)).Nodup := List.nodup_nil

theorem nodup_keys_set {entries : Entries α} (key : String) (value : α)
    (h : entries.keys.Nodup) : (entries.set key value).keys.Nodup := by
  rw [keys_set]
  split
  · exact h
  · rename_i hkey
    refine List.nodup_append.mpr ⟨h, by simp, fun other hother last hlast heq => ?_⟩
    obtain rfl := List.mem_singleton.mp hlast
    exact hkey (heq ▸ hother)

theorem nodup_keys_setAll {entries : Entries α} (pairs : List (String × α))
    (h : entries.keys.Nodup) : (entries.setAll pairs).keys.Nodup := by
  induction pairs generalizing entries with
  | nil => exact h
  | cons pair pairs ih => exact ih (nodup_keys_set pair.1 pair.2 h)

/-! ## Pairs that are set -/

theorem mem_of_mem_set {entries : Entries α} {key : String} {value : α} {pair : String × α}
    (h : pair ∈ entries.set key value) : pair = (key, value) ∨ pair ∈ entries := by
  induction entries with
  | nil => exact Or.inl (List.mem_singleton.mp h)
  | cons entry rest ih =>
      obtain ⟨k, v⟩ := entry
      rw [set] at h
      split at h
      · exact (List.mem_cons.mp h).imp id (List.mem_cons_of_mem _)
      · rcases List.mem_cons.mp h with rfl | h
        · exact Or.inr List.mem_cons_self
        · exact (ih h).imp id (List.mem_cons_of_mem _)

theorem mem_of_mem_setAll {entries : Entries α} {pairs : List (String × α)} {pair : String × α}
    (h : pair ∈ entries.setAll pairs) : pair ∈ entries ∨ pair ∈ pairs := by
  induction pairs generalizing entries with
  | nil => exact Or.inl h
  | cons first pairs ih =>
      rcases ih h with h | h
      · rcases mem_of_mem_set h with rfl | h
        · exact Or.inr List.mem_cons_self
        · exact Or.inl h
      · exact Or.inr (List.mem_cons_of_mem _ h)

end Entries

end Phrasebook
