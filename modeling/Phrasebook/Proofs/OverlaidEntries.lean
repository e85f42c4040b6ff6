import Phrasebook.Catalog
import Phrasebook.Proofs.FirstOccurrences

/-!
# Entries set one after the other

When many pairs are set one after the other, the first one decides on the place of a key and the
last one on its value. Entries with distinct keys are known by their keys in order and the value
of each.
-/

namespace Phrasebook.Entries

variable {α : Type}

theorem setAll_concat (entries : Entries α) (pairs : List (String × α)) (pair : String × α) :
    entries.setAll (pairs ++ [pair]) = (entries.setAll pairs).set pair.1 pair.2 := by
  rw [setAll, List.foldl_append]
  rfl

theorem setAll_append (entries : Entries α) (pairs rest : List (String × α)) :
    entries.setAll (pairs ++ rest) = (entries.setAll pairs).setAll rest :=
  List.foldl_append

theorem setAll_nil_of_nodup {pairs : List (String × α)} (h : (keys pairs).Nodup) :
    setAll [] pairs = pairs := by
  induction pairs using List.reverseRecOn with
  | nil => rfl
  | append_singleton pairs pair ih =>
      rw [keys, List.map_append, List.map_singleton, ← List.concat_eq_append,
        List.nodup_concat] at h
      rw [setAll_concat, ih h.2, set_of_not_mem pair.2 h.1]

theorem get?_eq_none_of_not_mem {entries : Entries α} {key : String} (h : key ∉ entries.keys) :
    entries.get? key = none := by
  induction entries with
  | nil => rfl
  | cons entry rest ih =>
      obtain ⟨k, v⟩ := entry
      simp only [keys, List.map_cons, List.mem_cons, not_or] at h
      rw [get?_cons, if_neg h.1]
      exact ih h.2

/-- The last pair that sets a key decides on its value. -/
theorem get?_setAll (entries : Entries α) (pairs : List (String × α)) (key : String) :
    (entries.setAll pairs).get? key = (pairs.reverse.lookup key).or (entries.get? key) := by
  -- From the end of the pairs, since the last one is looked at first.
  induction pairs using List.reverseRecOn with
  | nil => rfl
  | append_singleton pairs pair ih =>
      rw [setAll_concat, get?_set, List.reverse_append, List.reverse_singleton,
        List.singleton_append, List.lookup_cons, ih]
      by_cases h : key = pair.1
      · simp [h]
      · simp [h, beq_eq_false_iff_ne.mpr h]

theorem keys_setAll {entries : Entries α} (h : entries.keys.Nodup) (pairs : List (String × α)) :
    (entries.setAll pairs).keys = (entries.keys ++ pairs.map Prod.fst).eraseDups := by
  induction pairs using List.reverseRecOn with
  | nil =>
      rw [List.map_nil, List.append_nil]
      exact (eraseDups_of_nodup h).symm
  | append_singleton pairs pair ih =>
      rw [setAll_concat, keys_set, ih, List.map_append, List.map_singleton,
        ← List.append_assoc, eraseDups_concat]
      simp only [List.mem_eraseDups]

theorem lookup_reverse {entries : Entries α} (h : entries.keys.Nodup) (key : String) :
    List.lookup key entries.reverse = entries.get? key := by
  induction entries with
  | nil => rfl
  | cons entry rest ih =>
      obtain ⟨k, v⟩ := entry
      obtain ⟨habsent, hrest⟩ := List.nodup_cons.mp h
      rw [List.reverse_cons, List.lookup_append, ih hrest, get?_cons]
      by_cases hkey : key = k
      · subst hkey
        have hnone : get? key rest = none := get?_eq_none_of_not_mem habsent
        simp [hnone]
      · simp [hkey, List.lookup_cons, beq_eq_false_iff_ne.mpr hkey]

theorem mem_of_get? {entries : Entries α} {key : String} {value : α}
    (h : entries.get? key = some value) : (key, value) ∈ entries := by
  obtain ⟨before, after, hentries, -⟩ := List.lookup_eq_some_iff.mp h
  rw [hentries]
  exact List.mem_append_right _ List.mem_cons_self

theorem get?_of_mem {entries : Entries α} (h : entries.keys.Nodup) {key : String} {value : α}
    (hmem : (key, value) ∈ entries) : entries.get? key = some value := by
  induction entries with
  | nil => cases hmem
  | cons entry rest ih =>
      obtain ⟨k, v⟩ := entry
      obtain ⟨habsent, hrest⟩ := List.nodup_cons.mp h
      rw [get?_cons]
      rcases List.mem_cons.mp hmem with heq | htail
      · obtain ⟨rfl, rfl⟩ := Prod.mk.inj heq
        rw [if_pos rfl]
      · have hkey : key ≠ k := by
          rintro rfl
          exact habsent (List.mem_map.mpr ⟨_, htail, rfl⟩)
        rw [if_neg hkey]
        exact ih hrest htail

theorem eq_of_keys_eq {entries others : Entries α} (h : entries.keys.Nodup)
    (hkeys : entries.keys = others.keys) (hget : ∀ key, entries.get? key = others.get? key) :
    entries = others := by
  induction entries generalizing others with
  | nil =>
      cases others with
      | nil => rfl
      | cons other others => cases hkeys
  | cons entry rest ih =>
      cases others with
      | nil => cases hkeys
      | cons other others =>
          obtain ⟨k, v⟩ := entry
          obtain ⟨k', v'⟩ := other
          obtain ⟨habsent, hrest⟩ := List.nodup_cons.mp h
          simp only [keys, List.map_cons, List.cons.injEq] at hkeys
          obtain ⟨rfl, hkeys⟩ := hkeys
          have hhead := hget k
          simp only [get?_cons, if_true, Option.some.injEq] at hhead
          subst hhead
          congr 1
          apply ih hrest hkeys
          intro key
          by_cases hkey : key = k
          · subst hkey
            rw [get?_eq_none_of_not_mem habsent, get?_eq_none_of_not_mem]
            exact fun hmem => habsent (hkeys ▸ hmem)
          · simpa only [get?_cons, if_neg hkey] using hget key

/-- Pairs can be put together first and set afterwards. -/
theorem setAll_setAll_nil {entries : Entries α} (h : entries.keys.Nodup)
    (pairs : List (String × α)) : entries.setAll (setAll [] pairs) = entries.setAll pairs := by
  have hnodup := nodup_keys_setAll pairs (nodup_keys_nil (α := α))
  apply eq_of_keys_eq (nodup_keys_setAll _ h)
  · rw [keys_setAll h, keys_setAll h]
    show (_ ++ keys (setAll [] pairs)).eraseDups = _
    rw [keys_setAll nodup_keys_nil]
    exact eraseDups_append_eraseDups _ _
  · intro key
    rw [get?_setAll, get?_setAll, lookup_reverse hnodup, get?_setAll]
    simp [get?]

end Phrasebook.Entries
