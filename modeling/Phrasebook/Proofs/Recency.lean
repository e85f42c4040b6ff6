import Mathlib.Data.Finset.Card
import Mathlib.Data.List.Nodup
import Phrasebook.Cache

/-!
# The keys a bounded cache retains

Keys are used one after the other, and a cache keeps those used last, the latest one in front.
A key stays for as long as fewer other keys than the capacity have been used since.
-/

namespace Phrasebook.Cache

def use (capacity : Nat) (keys : List String) (key : String) : List String :=
  (key :: keys.filter (· ≠ key)).take capacity

def recent (capacity : Nat) (used : List String) : List String :=
  used.foldl (use capacity) []

/-- A key was used, and since then fewer other keys than the capacity. -/
def Retains (capacity : Nat) (used : List String) (key : String) : Prop :=
  ∃ before since, used = before ++ key :: since ∧ key ∉ since ∧ since.toFinset.card < capacity

theorem recent_concat (capacity : Nat) (used : List String) (key : String) :
    recent capacity (used ++ [key]) = use capacity (recent capacity used) key := by
  rw [recent, List.foldl_append]
  rfl

theorem mem_of_mem_use {capacity : Nat} {keys : List String} {key other : String}
    (h : other ∈ use capacity keys key) : other = key ∨ other ∈ keys := by
  have h := List.mem_of_mem_take h
  rcases List.mem_cons.mp h with h | h
  · exact Or.inl h
  · exact Or.inr (List.mem_of_mem_filter h)

theorem mem_of_mem_recent {capacity : Nat} {used : List String} {key : String}
    (h : key ∈ recent capacity used) : key ∈ used := by
  induction used using List.reverseRecOn with
  | nil => exact h
  | append_singleton used last ih =>
      rw [recent_concat] at h
      rw [List.mem_append, List.mem_singleton]
      exact (mem_of_mem_use h).symm.imp ih id

theorem nodup_cons_filter {keys : List String} (h : keys.Nodup) (key : String) :
    (key :: keys.filter (· ≠ key)).Nodup :=
  List.nodup_cons.mpr ⟨by simp, h.filter _⟩

/-! ## Places of keys -/

/-- The keys in front of a key: those used after it was used last. -/
def newer (keys : List String) (key : String) : List String := keys.takeWhile (· ≠ key)

theorem newer_cons_self (keys : List String) (key : String) : newer (key :: keys) key = [] := by
  simp [newer]

theorem newer_cons_of_ne {key other : String} (h : other ≠ key) (keys : List String) :
    newer (other :: keys) key = other :: newer keys key := by
  simp [newer, h]

theorem newer_filter {key other : String} (h : other ≠ key) (keys : List String) :
    newer (keys.filter (· ≠ other)) key = (newer keys key).filter (· ≠ other) := by
  induction keys with
  | nil => rfl
  | cons first keys ih =>
      by_cases hother : first = other
      · subst hother
        rw [newer_cons_of_ne h]
        simpa using ih
      · by_cases hkey : first = key
        · subst hkey
          rw [List.filter_cons_of_pos (by simpa using hother), newer_cons_self, newer_cons_self]
          rfl
        · rw [List.filter_cons_of_pos (by simpa using hother), newer_cons_of_ne hkey,
            newer_cons_of_ne hkey, ih, List.filter_cons_of_pos (by simpa using hother)]

theorem mem_take_iff {keys : List String} {key : String} (n : Nat) :
    key ∈ keys.take n ↔ key ∈ keys ∧ (newer keys key).length < n := by
  induction keys generalizing n with
  | nil => simp
  | cons first keys ih =>
      cases n with
      | zero => simp
      | succ n =>
          by_cases hkey : first = key
          · subst hkey
            simp [newer_cons_self]
          · rw [List.take_succ_cons, List.mem_cons, List.mem_cons, ih, newer_cons_of_ne hkey,
              List.length_cons]
            have hne : key ≠ first := fun heq => hkey heq.symm
            simp [hne]

theorem newer_take {keys : List String} {key : String} {n : Nat} (h : key ∈ keys.take n) :
    newer (keys.take n) key = newer keys key := by
  have hprefix : keys.take n ++ keys.drop n = keys := List.take_append_drop n keys
  obtain ⟨before, after, hsplit, hbefore⟩ := List.eq_append_cons_of_mem h
  have hall : ∀ other ∈ before, decide (other ≠ key) = true := by
    intro other hother
    simp only [decide_eq_true_eq]
    rintro rfl
    exact hbefore hother
  conv_rhs => rw [← hprefix]
  rw [hsplit, newer, newer, List.append_assoc, List.takeWhile_append_of_pos hall,
    List.takeWhile_append_of_pos hall]
  simp

theorem length_newer_lt {keys : List String} {key : String} (h : key ∈ keys) :
    (newer keys key).length < keys.length := by
  have htake : key ∈ keys.take keys.length := by rwa [List.take_length]
  exact ((mem_take_iff keys.length).mp htake).2

theorem mem_use_iff {capacity : Nat} {keys : List String} {key other : String}
    (h : other ≠ key) :
    key ∈ use capacity keys other ↔
      key ∈ keys ∧ (other :: (newer keys key).filter (· ≠ other)).length < capacity := by
  have hkey : key ∈ other :: keys.filter (· ≠ other) ↔ key ∈ keys := by
    simp [h.symm]
  rw [use, mem_take_iff, newer_cons_of_ne h, newer_filter h, hkey]

theorem newer_use {capacity : Nat} {keys : List String} {key other : String} (h : other ≠ key)
    (hmem : key ∈ use capacity keys other) :
    newer (use capacity keys other) key = other :: (newer keys key).filter (· ≠ other) := by
  rw [use] at hmem ⊢
  rw [newer_take hmem, newer_cons_of_ne h, newer_filter h]

/-! ## Keys that are retained -/

theorem card_le_card_concat (since : List String) (key : String) :
    since.toFinset.card ≤ (since ++ [key]).toFinset.card := by
  apply Finset.card_le_card
  intro other h
  simp_all

theorem toFinset_cons_filter {since newer : List String} (h : newer.toFinset = since.toFinset)
    (key : String) :
    (key :: newer.filter (· ≠ key)).toFinset = (since ++ [key]).toFinset := by
  ext other
  have hmem : other ∈ newer ↔ other ∈ since := by
    rw [← List.mem_toFinset, h, List.mem_toFinset]
  by_cases heq : other = key <;> simp [heq, hmem]

/-- A key is kept while fewer others than the capacity are used, and these are then in front of it,
each once. -/
theorem recent_append_cons (capacity : Nat) (before since : List String) (key : String)
    (hkey : key ∉ since) :
    (key ∈ recent capacity (before ++ key :: since) ↔ since.toFinset.card < capacity) ∧
    (key ∈ recent capacity (before ++ key :: since) →
      (newer (recent capacity (before ++ key :: since)) key).Nodup ∧
      (newer (recent capacity (before ++ key :: since)) key).toFinset = since.toFinset) := by
  -- Each use pushes the key one place back or leaves it there; what is dropped does not return.
  induction since using List.reverseRecOn with
  | nil =>
      rw [recent_concat, use]
      refine ⟨?_, fun hmem => ?_⟩
      · rw [mem_take_iff, newer_cons_self]
        simp
      · rw [newer_take hmem, newer_cons_self]
        exact ⟨List.nodup_nil, rfl⟩
  | append_singleton since last ih =>
      have hlast : last ≠ key := fun heq => hkey (by simp [heq])
      obtain ⟨hiff, hnewer⟩ := ih fun hmem => hkey (by simp [hmem])
      have hassoc : before ++ key :: (since ++ [last]) = (before ++ key :: since) ++ [last] := by
        simp
      rw [hassoc, recent_concat]
      have hplaces : key ∈ recent capacity (before ++ key :: since) →
          (last :: (newer (recent capacity (before ++ key :: since)) key).filter
            (· ≠ last)).Nodup ∧
          (last :: (newer (recent capacity (before ++ key :: since)) key).filter
            (· ≠ last)).toFinset = (since ++ [last]).toFinset := fun hmem =>
        ⟨nodup_cons_filter (hnewer hmem).1 last, toFinset_cons_filter (hnewer hmem).2 last⟩
      refine ⟨?_, fun hmem => ?_⟩
      · rw [mem_use_iff hlast]
        constructor
        · rintro ⟨hmem, hroom⟩
          rwa [← (hplaces hmem).2, List.toFinset_card_of_nodup (hplaces hmem).1]
        · intro hroom
          have hmem := hiff.mpr (Nat.lt_of_le_of_lt (card_le_card_concat since last) hroom)
          refine ⟨hmem, ?_⟩
          rwa [← List.toFinset_card_of_nodup (hplaces hmem).1, (hplaces hmem).2]
      · rw [newer_use hlast hmem]
        exact hplaces ((mem_use_iff hlast).mp hmem).1

theorem mem_recent_iff {capacity : Nat} {used : List String} {key : String} :
    key ∈ recent capacity used ↔ Retains capacity used key := by
  constructor
  · intro h
    have hused : key ∈ used.reverse := List.mem_reverse.mpr (mem_of_mem_recent h)
    obtain ⟨since, before, heq, hsince⟩ := List.eq_append_cons_of_mem hused
    have hsplit : used = before.reverse ++ key :: since.reverse := by
      rw [← List.reverse_reverse used, heq]
      simp
    have hkey : key ∉ since.reverse := by simpa using hsince
    rw [hsplit] at h
    exact ⟨before.reverse, since.reverse, hsplit, hkey,
      (recent_append_cons capacity _ _ key hkey).1.mp h⟩
  · rintro ⟨before, since, rfl, hkey, hroom⟩
    exact (recent_append_cons capacity before since key hkey).1.mpr hroom

end Phrasebook.Cache
