import Phrasebook.Proofs.CacheRuns

/-!
# Entries unused for longest

The keys in front of a key are those used since it was used last. So an entry stays while fewer
other keys than the capacity are touched, and has gone once so many are written.
-/

namespace Phrasebook.Cache

/-- What an operation does to the keys: it uses its key, or it reads one that is not there, or it
removes one whose entry is expired. -/
theorem keys_apply_cases (c : Cache) (operation : Operation) :
    (operation.apply c).keys = use c.capacity c.keys operation.key ∨
    (operation.target? = none ∧ (operation.apply c).keys = c.keys) ∨
    (∃ e, (operation.key, e) ∈ c.entries ∧ e.isExpired = true ∧
      (operation.apply c).keys = c.keys.filter (· ≠ operation.key)) := by
  cases operation with
  | get key =>
      rcases c.get_cases key with ⟨-, hc⟩ | ⟨e, hmem, hexpired, hc⟩ | ⟨e, -, -, hc⟩
      · exact Or.inr (Or.inl ⟨rfl, by rw [Operation.apply, hc]⟩)
      · refine Or.inr (Or.inr ⟨e, hmem, hexpired, ?_⟩)
        rw [Operation.apply, hc]
        exact c.keys_others key
      · left
        rw [Operation.apply, hc]
        exact c.keys_put key e
  | set key catalog timeToLive => exact Or.inl (c.keys_put key ⟨catalog, timeToLive⟩)

/-! ## Keys that stay -/

/-- A key is there, and the keys in front of it are among those touched. -/
structure Within (c : Cache) (key : String) (touched : Finset String) : Prop where
  mem : key ∈ c.keys
  newer_mem : ∀ other ∈ newer c.keys key, other ∈ touched

theorem Within.mono {c : Cache} {key : String} {touched more : Finset String}
    (h : c.Within key touched) (hsub : touched ⊆ more) : c.Within key more :=
  ⟨h.mem, fun other hother => hsub (h.newer_mem other hother)⟩

theorem within_put (c : Cache) (key : String) (e : Entry) : (c.put key e).Within key ∅ := by
  obtain ⟨n, hn⟩ := Nat.exists_eq_add_one_of_ne_zero c.capacity_pos.ne'
  have hkeys := c.keys_put key e
  rw [use, hn, List.take_succ_cons] at hkeys
  constructor
  · rw [hkeys]
    exact List.mem_cons_self
  · rw [hkeys, newer_cons_self]
    exact fun other hother => absurd hother List.not_mem_nil

theorem within_get {c : Cache} {key : String} {e : Entry} (hmem : (key, e) ∈ c.entries)
    (hexpired : e.isExpired = false) : (c.get key).2.Within key ∅ := by
  rcases c.get_cases key with ⟨hkey, -⟩ | ⟨other, hother, hold, -⟩ | ⟨other, -, -, hc⟩
  · exact absurd (List.mem_map_of_mem hmem) hkey
  · rw [← eq_of_mem_entries hmem hother, hexpired] at hold
    cases hold
  · rw [hc]
    exact c.within_put key other

theorem length_le_card {keys : List String} (h : keys.Nodup) {touched : Finset String}
    (hsub : ∀ key ∈ keys, key ∈ touched) : keys.length ≤ touched.card := by
  rw [← List.toFinset_card_of_nodup h]
  exact Finset.card_le_card fun key hkey => hsub key (List.mem_toFinset.mp hkey)

/-- A key stays when another one is touched, as long as fewer keys are touched than there is room
for. -/
theorem Within.apply {c : Cache} {key : String} {touched : Finset String}
    (h : c.Within key touched) {operation : Operation} (hne : operation.key ≠ key)
    (hroom : (insert operation.key touched).card < c.capacity) :
    (operation.apply c).Within key (insert operation.key touched) := by
  have hfront : ∀ other ∈ operation.key :: (newer c.keys key).filter (· ≠ operation.key),
      other ∈ insert operation.key touched := by
    intro other hother
    rcases List.mem_cons.mp hother with rfl | hother
    · exact Finset.mem_insert_self _ _
    · exact Finset.mem_insert_of_mem (h.newer_mem other (List.mem_of_mem_filter hother))
  rcases c.keys_apply_cases operation with hkeys | ⟨-, hkeys⟩ | ⟨e, -, -, hkeys⟩
  · have hnewer : (newer c.keys key).Nodup := c.nodup_keys.sublist (List.takeWhile_sublist _)
    have hlength := length_le_card (nodup_cons_filter hnewer operation.key) hfront
    have hmem : key ∈ use c.capacity c.keys operation.key :=
      (mem_use_iff hne).mpr ⟨h.mem, Nat.lt_of_le_of_lt hlength hroom⟩
    constructor
    · rwa [hkeys]
    · rw [hkeys, newer_use hne hmem]
      exact hfront
  · constructor
    · rw [hkeys]
      exact h.mem
    · rw [hkeys]
      exact fun other hother => Finset.mem_insert_of_mem (h.newer_mem other hother)
  · constructor
    · rw [hkeys]
      exact List.mem_filter.mpr ⟨h.mem, by simpa using hne.symm⟩
    · rw [hkeys, newer_filter hne]
      exact fun other hother => hfront other (List.mem_cons_of_mem _ hother)

def touched (operations : List Operation) (key : String) : Finset String :=
  (operations.map Operation.key).toFinset.erase key

theorem touched_concat {last : Operation} {key : String} (operations : List Operation)
    (h : last.key ≠ key) :
    touched (operations ++ [last]) key = insert last.key (touched operations key) := by
  ext other
  by_cases hlast : other = last.key
  · simp [touched, hlast, h]
  · simp [touched, hlast]

theorem touched_subset_append (operations more : List Operation) (key : String) :
    touched operations key ⊆ touched (operations ++ more) key := by
  intro other
  simp only [touched, Finset.mem_erase, List.mem_toFinset, List.map_append, List.mem_append]
  exact fun h => ⟨h.1, Or.inl h.2⟩

theorem within_run {capacity : Nat} {earlier since : List Operation} {key : String} {e : Entry}
    (hlast : lastWritten? earlier key = some e) (hexpired : e.isExpired = false)
    (hstart : ((ofCapacity capacity).run earlier).Within key ∅)
    (hsince : lastWritten? since key = none)
    (hroom : (touched since key).card < max 1 capacity) :
    ((ofCapacity capacity).run (earlier ++ since)).Within key (touched since key) := by
  induction since using List.reverseRecOn with
  | nil =>
      rw [List.append_nil]
      exact hstart
  | append_singleton since last ih =>
      rw [lastWritten?_append, lastWritten?_singleton, Option.or_eq_none_iff] at hsince
      obtain ⟨hunwritten, hsince⟩ := hsince
      have hmono := touched_subset_append since [last] key
      have hwithin := ih hsince (Nat.lt_of_le_of_lt (Finset.card_le_card hmono) hroom)
      rw [← List.append_assoc, run_concat]
      by_cases hkey : last.key = key
      · -- The key is not written again, so this is a read that finds it.
        cases last with
        | set other catalog timeToLive =>
            obtain rfl : other = key := hkey
            rw [Operation.written?, if_pos rfl] at hunwritten
            cases hunwritten
        | get other =>
            obtain rfl : other = key := hkey
            obtain ⟨⟨other, found⟩, hmem, rfl⟩ := List.mem_map.mp hwithin.mem
            have hwritten := holdsLast_run capacity (earlier ++ since) other found hmem
            rw [lastWritten?_append, hsince, hlast] at hwritten
            obtain rfl := Option.some.inj hwritten
            exact (within_get hmem hexpired).mono (Finset.empty_subset _)
      · rw [touched_concat since hkey] at hroom ⊢
        apply hwithin.apply hkey
        rw [capacity_run]
        exact hroom

theorem live?_run_of_within {capacity : Nat} {operations : List Operation} {key : String}
    {touched : Finset String} {e : Entry} (hlast : lastWritten? operations key = some e)
    (hexpired : e.isExpired = false)
    (h : ((ofCapacity capacity).run operations).Within key touched) :
    ((ofCapacity capacity).run operations).live? key = some e.catalog := by
  obtain ⟨⟨key, found⟩, hmem, rfl⟩ := List.mem_map.mp h.mem
  have hwritten := holdsLast_run capacity operations key found hmem
  obtain rfl := Option.some.inj (hlast.symm.trans hwritten)
  exact live?_of_mem hmem hexpired

/-! ## Keys that go -/

def NeverExpires (operations : List Operation) : Prop :=
  ∀ key catalog, .set key catalog (some 0) ∉ operations

theorem mem_of_lastWritten? {operations : List Operation} {key : String} {e : Entry}
    (h : lastWritten? operations key = some e) :
    .set key e.catalog e.timeToLive ∈ operations := by
  obtain ⟨operation, hmem, hwritten⟩ := List.exists_of_findSome?_eq_some h
  cases operation with
  | get other => cases hwritten
  | set other catalog timeToLive =>
      rw [Operation.written?] at hwritten
      split at hwritten
      · rename_i hkey
        obtain rfl := Option.some.inj hwritten
        rw [← hkey]
        exact List.mem_reverse.mp hmem
      · cases hwritten

theorem isExpired_of_mem_run {capacity : Nat} {operations : List Operation}
    (h : NeverExpires operations) {key : String} {e : Entry}
    (hmem : (key, e) ∈ ((ofCapacity capacity).run operations).entries) : e.isExpired = false := by
  have hset := mem_of_lastWritten? (holdsLast_run capacity operations key e hmem)
  rw [Entry.isExpired, beq_eq_false_iff_ne]
  intro hzero
  rw [hzero] at hset
  exact h key e.catalog hset

theorem NeverExpires.of_append {operations more : List Operation}
    (h : NeverExpires (operations ++ more)) : NeverExpires operations :=
  fun key catalog hmem => h key catalog (List.mem_append_left _ hmem)

theorem newer_run {capacity : Nat} {earlier since : List Operation} {key : String}
    (hfresh : NeverExpires (earlier ++ since)) (hsince : ∀ operation ∈ since, operation.key ≠ key)
    (hmem : key ∈ ((ofCapacity capacity).run (earlier ++ since)).keys) :
    ∀ other ∈ since.filterMap Operation.target?,
      other ∈ newer ((ofCapacity capacity).run (earlier ++ since)).keys key := by
  induction since using List.reverseRecOn with
  | nil => exact fun other hother => absurd hother List.not_mem_nil
  | append_singleton since last ih =>
      rw [← List.append_assoc] at hfresh hmem ⊢
      rw [run_concat] at hmem ⊢
      have hne : last.key ≠ key := hsince last (by simp)
      have ih := ih hfresh.of_append fun operation hoperation =>
        hsince operation (List.mem_append_left _ hoperation)
      intro other hother
      rw [List.filterMap_append, List.mem_append] at hother
      rcases keys_apply_cases _ last with hkeys | ⟨htarget, hkeys⟩ | ⟨e, he, hexpired, -⟩
      · rw [hkeys] at hmem ⊢
        have hkey := ((mem_use_iff hne).mp hmem).1
        rw [newer_use hne hmem]
        by_cases hlast : other = last.key
        · rw [hlast]
          exact List.mem_cons_self
        · have hearlier : other ∈ since.filterMap Operation.target? := by
            refine hother.resolve_right fun hwritten => hlast ?_
            obtain ⟨operation, hoperation, htarget⟩ := List.mem_filterMap.mp hwritten
            rw [List.mem_singleton.mp hoperation] at htarget
            exact Operation.key_of_target? htarget
          exact List.mem_cons_of_mem _
            (List.mem_filter.mpr ⟨ih hkey other hearlier, by simpa using hlast⟩)
      · rw [hkeys] at hmem ⊢
        have hearlier : other ∈ since.filterMap Operation.target? := by
          simpa [htarget] using hother
        exact ih hmem other hearlier
      · have hfalse := isExpired_of_mem_run hfresh.of_append he
        rw [hexpired] at hfalse
        cases hfalse

theorem not_mem_keys_run {capacity : Nat} {earlier since : List Operation} {key : String}
    (hfresh : NeverExpires (earlier ++ since)) (hsince : ∀ operation ∈ since, operation.key ≠ key)
    (hfull : max 1 capacity ≤ (since.filterMap Operation.target?).toFinset.card) :
    key ∉ ((ofCapacity capacity).run (earlier ++ since)).keys := by
  intro hmem
  have hnewer := newer_run hfresh hsince hmem
  have hlength := ((ofCapacity capacity).run (earlier ++ since)).length_keys_le
  rw [capacity_run] at hlength
  -- All these keys stand in front of this one, which leaves it no room.
  have hcard : (since.filterMap Operation.target?).toFinset.card ≤
      (newer ((ofCapacity capacity).run (earlier ++ since)).keys key).length := by
    apply Nat.le_trans (Finset.card_le_card _) (List.toFinset_card_le _)
    intro other hother
    exact List.mem_toFinset.mpr (hnewer other (List.mem_toFinset.mp hother))
  have hlt := length_newer_lt hmem
  have hcapacity : (ofCapacity capacity).capacity = max 1 capacity := rfl
  omega

/-! ## What reads give -/

theorem exists_entry_of_get_run {capacity : Nat} {operations : List Operation} {key : String}
    {catalog : Catalog} (h : (((ofCapacity capacity).run operations).get key).1 = some catalog) :
    ∃ e, (key, e) ∈ ((ofCapacity capacity).run operations).entries ∧ e.isExpired = false ∧
      e.catalog = catalog ∧ lastWritten? operations key = some e := by
  rw [get_fst] at h
  obtain ⟨e, hmem, hexpired, rfl⟩ := mem_entries_of_live? h
  exact ⟨e, hmem, hexpired, rfl, holdsLast_run capacity operations key e hmem⟩

theorem within_of_last {capacity : Nat} {before : List Operation} {last : Operation}
    {key : String} {catalog : Catalog}
    (h : (∃ timeToLive, timeToLive ≠ some 0 ∧ last = .set key catalog timeToLive) ∨
      (last = .get key ∧ (((ofCapacity capacity).run before).get key).1 = some catalog)) :
    ∃ e : Entry, e.isExpired = false ∧ e.catalog = catalog ∧
      lastWritten? (before ++ [last]) key = some e ∧
      ((ofCapacity capacity).run (before ++ [last])).Within key ∅ := by
  rw [run_concat, lastWritten?_append, lastWritten?_singleton]
  rcases h with ⟨timeToLive, hlive, rfl⟩ | ⟨rfl, hget⟩
  · refine ⟨⟨catalog, timeToLive⟩, beq_eq_false_iff_ne.mpr hlive, rfl, ?_, ?_⟩
    · rw [Operation.written?, if_pos rfl]
      rfl
    · exact within_put _ key ⟨catalog, timeToLive⟩
  · obtain ⟨e, hmem, hexpired, rfl, hearlier⟩ := exists_entry_of_get_run hget
    exact ⟨e, hexpired, rfl, hearlier, within_get hmem hexpired⟩

/-- In every run of a cache: it never holds more entries than its capacity; what it gives back was
written last under the key, to live longer than no time; an entry that was just written to live, or
read, is given back as long as fewer other keys than the capacity are touched; and if no entry ever
expires, one that was not touched while as many other keys as the capacity were written is gone. -/
theorem run_leastRecentlyUsed (capacity : Nat) :
    (∀ operations, ((ofCapacity capacity).run operations).length ≤ max 1 capacity) ∧
    (∀ operations key catalog,
      (((ofCapacity capacity).run operations).get key).1 = some catalog →
        ∃ timeToLive, lastWritten? operations key = some ⟨catalog, timeToLive⟩ ∧
          timeToLive ≠ some 0) ∧
    (∀ before last since key catalog,
      (∃ timeToLive, timeToLive ≠ some 0 ∧ last = .set key catalog timeToLive) ∨
        (last = .get key ∧ (((ofCapacity capacity).run before).get key).1 = some catalog) →
      lastWritten? since key = none → (touched since key).card < max 1 capacity →
        (((ofCapacity capacity).run (before ++ last :: since)).get key).1 = some catalog) ∧
    ∀ before since key, NeverExpires (before ++ since) →
      (∀ operation ∈ since, operation.key ≠ key) →
      max 1 capacity ≤ (since.filterMap Operation.target?).toFinset.card →
        (((ofCapacity capacity).run (before ++ since)).get key).1 = none := by
  refine ⟨?_, ?_, ?_, ?_⟩
  · intro operations
    have hlength := ((ofCapacity capacity).run operations).length_le
    rw [capacity_run] at hlength
    exact hlength
  · intro operations key catalog hget
    obtain ⟨e, -, hexpired, rfl, hlast⟩ := exists_entry_of_get_run hget
    exact ⟨e.timeToLive, hlast, beq_eq_false_iff_ne.mp hexpired⟩
  · intro before last since key catalog hlast hsince hroom
    obtain ⟨e, hexpired, rfl, hwritten, hstart⟩ := within_of_last hlast
    have hstays := within_run hwritten hexpired hstart hsince hroom
    have hassoc : before ++ last :: since = (before ++ [last]) ++ since := by simp
    rw [get_fst, hassoc]
    apply live?_run_of_within _ hexpired hstays
    rw [lastWritten?_append, hsince, hwritten]
    rfl
  · intro before since key hfresh hsince hfull
    rw [get_fst]
    exact live?_of_not_mem (not_mem_keys_run hfresh hsince hfull)

/-- In a cache for three entries an expired one is removed and makes room; in one for two entries
the first one makes room for the third. -/
theorem run_leastRecentlyUsed_three_keys :
    let one := Catalog.ofList [("k", .text "one")]
    let two := Catalog.ofList [("k", .text "two")]
    let since := [.get "b", .set "c" two none, .get "a", .get "b"]
    let operations := .set "b" two (some 0) :: .set "a" one (some 60) :: since
    let writes := [.set "b" two none, .get "d", .set "c" two (some 60)]
    lastWritten? since "a" = none ∧ (touched since "a").card < max 1 3 ∧
    (((ofCapacity 3).run operations).get "a").1 = some one ∧
    (∃ timeToLive, lastWritten? operations "a" = some ⟨one, timeToLive⟩ ∧
      timeToLive ≠ some 0) ∧
    NeverExpires (.set "a" one none :: writes) ∧ (∀ operation ∈ writes, operation.key ≠ "a") ∧
    max 1 2 ≤ (writes.filterMap Operation.target?).toFinset.card ∧
    (((ofCapacity 2).run (.set "a" one none :: writes)).get "a").1 = none := by
  intro one two since operations writes
  have hunwritten : lastWritten? since "a" = none := rfl
  have hroom : (touched since "a").card < max 1 3 := by decide +kernel
  have hstays := (run_leastRecentlyUsed 3).2.2.1 [.set "b" two (some 0)]
    (.set "a" one (some 60)) since "a" one (Or.inl ⟨some 60, by decide, rfl⟩) hunwritten hroom
  have hfresh : NeverExpires (.set "a" one none :: writes) := by
    intro key catalog hmem
    simp [writes] at hmem
  have hothers : ∀ operation ∈ writes, operation.key ≠ "a" := by
    simp [writes, Operation.key]
  have hfull : max 1 2 ≤ (writes.filterMap Operation.target?).toFinset.card := by decide +kernel
  exact ⟨hunwritten, hroom, hstays, (run_leastRecentlyUsed 3).2.1 operations "a" one hstays,
    hfresh, hothers, hfull,
    (run_leastRecentlyUsed 2).2.2.2 [.set "a" one none] writes "a" hfresh hothers hfull⟩

end Phrasebook.Cache
