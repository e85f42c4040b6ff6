import Phrasebook.Loader
import Phrasebook.Proofs.OverlaidEntries
import Phrasebook.Proofs.Recency

/-!
# Loads through a cache

A load through a bounded cache is a miss or a hit. A miss asks the loader and writes what it
gave; a hit answers with what is there, whoever wrote it.
-/

namespace Phrasebook

namespace Cache

/-- What a read would find: an entry that is not expired. -/
def live? (c : Cache) (key : String) : Option Catalog :=
  (c.entries.get? key).bind fun e => if e.isExpired then none else some e.catalog

theorem get_fst (c : Cache) (key : String) : (c.get key).1 = c.live? key := by
  unfold get live?
  cases c.entries.get? key with
  | none => rfl
  | some e => cases h : e.isExpired <;> simp [h]

theorem mem_others {c : Cache} {key other : String} {e : Entry} :
    (other, e) ∈ c.others key ↔ (other, e) ∈ c.entries ∧ other ≠ key := by
  simp [others]

theorem eq_of_mem_entries {c : Cache} {key : String} {e found : Entry}
    (h : (key, e) ∈ c.entries) (hfound : (key, found) ∈ c.entries) : e = found := by
  have hget := Entries.get?_of_mem c.nodup_keys h
  rw [Entries.get?_of_mem c.nodup_keys hfound] at hget
  exact (Option.some.inj hget).symm

theorem others_remove (c : Cache) (key : String) : (c.remove key).others key = c.others key := by
  simp [remove, others, List.filter_filter]

/-- A key that is there leaves its place to be put in front, so nothing is dropped. -/
theorem entries_put_of_mem {c : Cache} {key : String} (h : key ∈ c.keys) (e : Entry) :
    (c.put key e).entries = (key, e) :: c.others key := by
  obtain ⟨entry, hmem, rfl⟩ := List.mem_map.mp h
  have hlt : (c.others entry.1).length < c.entries.length :=
    List.length_filter_lt_length_iff_exists.mpr ⟨entry, hmem, by simp⟩
  exact List.take_of_length_le (Nat.le_trans hlt c.length_le)

theorem others_put_of_mem {c : Cache} {key : String} (h : key ∈ c.keys) (e : Entry) :
    (c.put key e).others key = c.others key := by
  rw [others, entries_put_of_mem h]
  simp [others, List.filter_filter]

theorem keys_put (c : Cache) (key : String) (e : Entry) :
    (c.put key e).keys = use c.capacity c.keys key := by
  rw [keys, entries_put, Entries.keys, List.map_take, List.map_cons, use, ← keys_others]
  rfl

theorem mem_entries_put {c : Cache} {key other : String} {e found : Entry}
    (h : (other, found) ∈ (c.put key e).entries) :
    (other = key ∧ found = e) ∨ ((other, found) ∈ c.entries ∧ other ≠ key) := by
  rcases List.mem_cons.mp (List.mem_of_mem_take h) with heq | h
  · exact Or.inl (Prod.mk.inj heq)
  · exact Or.inr (mem_others.mp h)

/-- What a read does: nothing for a key that is not there, else it removes the entry if that is
expired and puts it in front if not. -/
theorem get_cases (c : Cache) (key : String) :
    (key ∉ c.keys ∧ (c.get key).2 = c) ∨
    (∃ e, (key, e) ∈ c.entries ∧ e.isExpired = true ∧ (c.get key).2 = c.remove key) ∨
    (∃ e, (key, e) ∈ c.entries ∧ e.isExpired = false ∧ (c.get key).2 = c.put key e) := by
  cases hfound : c.entries.get? key with
  | none =>
      refine Or.inl ⟨fun hkey => ?_, by rw [get, hfound]⟩
      obtain ⟨entry, hmem, rfl⟩ := List.mem_map.mp hkey
      rw [Entries.get?_of_mem c.nodup_keys hmem] at hfound
      cases hfound
  | some e =>
      have hmem : (key, e) ∈ c.entries := Entries.mem_of_get? hfound
      cases hexpired : e.isExpired with
      | true => exact Or.inr (Or.inl ⟨e, hmem, hexpired, by simp [get, hfound, hexpired]⟩)
      | false => exact Or.inr (Or.inr ⟨e, hmem, hexpired, by simp [get, hfound, hexpired]⟩)

theorem mem_entries_of_mem_get {c : Cache} {key other : String} {e : Entry}
    (h : (other, e) ∈ (c.get key).2.entries) : (other, e) ∈ c.entries := by
  rcases c.get_cases key with ⟨-, hc⟩ | ⟨found, -, -, hc⟩ | ⟨found, hfound, -, hc⟩
  · rwa [hc] at h
  · rw [hc] at h
    exact (mem_others.mp h).1
  · rw [hc] at h
    rcases mem_entries_put h with ⟨rfl, rfl⟩ | ⟨h, -⟩
    · exact hfound
    · exact h

theorem put_eq_put {c d : Cache} {key : String} (hcapacity : c.capacity = d.capacity)
    (hothers : c.others key = d.others key) (e : Entry) : c.put key e = d.put key e := by
  ext1
  · exact hcapacity
  · rw [entries_put, entries_put, hcapacity, hothers]

/-- A write forgets everything a read under the same key did. -/
theorem set_get (c : Cache) (key : String) (catalog : Catalog) (timeToLive : Option Nat) :
    (c.get key).2.set key catalog timeToLive = c.set key catalog timeToLive := by
  rcases c.get_cases key with ⟨-, hc⟩ | ⟨found, -, -, hc⟩ | ⟨found, hfound, -, hc⟩
  · rw [hc]
  · rw [hc]
    apply put_eq_put
    · rfl
    · exact c.others_remove key
  · have hkey : key ∈ c.keys := List.mem_map_of_mem hfound
    rw [hc]
    apply put_eq_put
    · rfl
    · exact others_put_of_mem hkey found

theorem mem_entries_of_live? {c : Cache} {key : String} {found : Catalog}
    (h : c.live? key = some found) :
    ∃ e, (key, e) ∈ c.entries ∧ e.isExpired = false ∧ e.catalog = found := by
  obtain ⟨e, hlookup, he⟩ := Option.bind_eq_some_iff.mp h
  cases hexp : e.isExpired with
  | true => simp [hexp] at he
  | false => exact ⟨e, Entries.mem_of_get? hlookup, hexp, by simpa [hexp] using he⟩

theorem live?_of_mem {c : Cache} {key : String} {e : Entry} (hmem : (key, e) ∈ c.entries)
    (hexpired : e.isExpired = false) : c.live? key = some e.catalog := by
  simp [live?, Entries.get?_of_mem c.nodup_keys hmem, hexpired]

theorem live?_ne_none {c : Cache} {key : String} (hkey : key ∈ c.keys)
    (hexp : ∀ e, (key, e) ∈ c.entries → e.isExpired = false) : c.live? key ≠ none := by
  obtain ⟨entry, hmem, rfl⟩ := List.mem_map.mp hkey
  rw [live?_of_mem hmem (hexp entry.2 hmem)]
  nofun

theorem live?_of_not_mem {c : Cache} {key : String} (h : key ∉ c.keys) : c.live? key = none := by
  simp [live?, Entries.get?_eq_none_of_not_mem h]

end Cache

namespace Loader

theorem cached_of_miss {start domain locale : String} (timeToLive : Option Nat)
    {loader : Loader Cache} {c : Cache} {catalog : Catalog}
    (hload : ∀ c, loader domain locale c = (.ok catalog, c))
    (hmiss : ∀ found, c.live? (cacheKey start domain locale) = some found →
      found.isEmpty = true) :
    cached Cache.backend start timeToLive loader domain locale c =
      (.ok catalog, c.set (cacheKey start domain locale) catalog timeToLive) := by
  rw [← Cache.get_fst] at hmiss
  rw [← Cache.set_get]
  unfold cached Cache.backend
  cases hget : (c.get (cacheKey start domain locale)).1 with
  | none => simp [hget, hload]
  | some found => simp [hget, hload, hmiss found hget]

theorem cached_of_hit {start domain locale : String} (timeToLive : Option Nat)
    (loader : Loader Cache) {c : Cache} {found : Catalog}
    (hhit : c.live? (cacheKey start domain locale) = some found) (hne : found.isEmpty = false) :
    cached Cache.backend start timeToLive loader domain locale c =
      (.ok found, (c.get (cacheKey start domain locale)).2) := by
  rw [← Cache.get_fst] at hhit
  unfold cached Cache.backend
  simp [hhit, hne]

end Loader

end Phrasebook
