import Phrasebook.Proofs.CacheRuns
import Phrasebook.Proofs.FailingSources
import Phrasebook.Proofs.TransparentCaches

/-!
# Loads that a cache saves

A bounded cache with room for all pairs that are loaded holds the catalogs of those loaded so far,
and nothing else. So the loader behind it is asked once for a pair with texts, and every time for a
pair that has an error or an empty catalog: errors are not written, and what is found empty is
loaded again.
-/

namespace Phrasebook

namespace Cache

theorem mem_entries_get_iff {c : Cache} (hlive : ∀ entry ∈ c.entries, entry.2.isExpired = false)
    (key : String) {other : String} {e : Entry} :
    (other, e) ∈ (c.get key).2.entries ↔ (other, e) ∈ c.entries := by
  refine ⟨mem_entries_of_mem_get, fun hmem => ?_⟩
  rcases c.get_cases key with ⟨-, hc⟩ | ⟨found, hfound, hexpired, -⟩ | ⟨found, hfound, -, hc⟩
  · rwa [hc]
  · rw [hlive _ hfound] at hexpired
    cases hexpired
  · rw [hc, entries_put_of_mem (List.mem_map_of_mem hfound), List.mem_cons, mem_others]
    by_cases hkey : other = key
    · subst hkey
      rw [eq_of_mem_entries hmem hfound]
      exact Or.inl rfl
    · exact Or.inr ⟨hmem, hkey⟩

theorem mem_entries_set_iff {c : Cache} {key : String} {catalog : Catalog}
    {timeToLive : Option Nat} (hroom : (key :: c.keys.filter (· ≠ key)).length ≤ c.capacity)
    {other : String} {e : Entry} :
    (other, e) ∈ (c.set key catalog timeToLive).entries ↔
      (other = key ∧ e = ⟨catalog, timeToLive⟩) ∨ ((other, e) ∈ c.entries ∧ other ≠ key) := by
  rw [← keys_others, List.length_cons, Entries.keys, List.length_map, ← List.length_cons] at hroom
  rw [set, entries_put, List.take_of_length_le hroom, List.mem_cons, mem_others, Prod.mk.injEq]

end Cache

namespace Loader

/-- Catalogs that are not empty are the answers that a cache can give in the place of a loader. -/
def isSaved : Except LoadError Catalog → Bool
  | .ok c => !c.isEmpty
  | .error _ => false

/-- A cache holds the catalogs of the pairs that were loaded, for good, and nothing else. -/
structure HoldsAnswers (start : String) (answer : String × String → Except LoadError Catalog)
    (capacity : Nat) (done : List (String × String)) (c : Cache) : Prop where
  capacity_le : capacity ≤ c.capacity
  mem_iff : ∀ key e, (key, e) ∈ c.entries ↔ ∃ pair ∈ done, ∃ catalog,
    answer pair = .ok catalog ∧ key = cacheKey start pair.1 pair.2 ∧ e = ⟨catalog, none⟩

namespace HoldsAnswers

variable {start : String} {answer : String × String → Except LoadError Catalog} {capacity : Nat}
  {done pairs : List (String × String)} {c : Cache}

theorem ofCapacity : HoldsAnswers start answer capacity [] (Cache.ofCapacity capacity) where
  capacity_le := Nat.le_max_right 1 capacity
  mem_iff key e := by simp [Cache.ofCapacity]

variable (h : HoldsAnswers start answer capacity done c)

include h

theorem isExpired_eq_false {entry : String × Cache.Entry} (hmem : entry ∈ c.entries) :
    entry.2.isExpired = false := by
  obtain ⟨_, -, _, -, -, he⟩ := (h.mem_iff entry.1 entry.2).mp hmem
  rw [he]
  rfl

theorem get (key : String) : HoldsAnswers start answer capacity done (c.get key).2 where
  capacity_le := by
    have hcapacity := c.capacity_apply (.get key)
    rw [Cache.Operation.apply] at hcapacity
    rw [hcapacity]
    exact h.capacity_le
  mem_iff other e := by
    rw [Cache.mem_entries_get_iff fun _ => h.isExpired_eq_false, h.mem_iff]

theorem live?_of_mem {pair : String × String} (hmem : pair ∈ done) {catalog : Catalog}
    (hanswer : answer pair = .ok catalog) :
    c.live? (cacheKey start pair.1 pair.2) = some catalog := by
  have hentry : (cacheKey start pair.1 pair.2, ⟨catalog, none⟩) ∈ c.entries :=
    (h.mem_iff _ _).mpr ⟨pair, hmem, catalog, hanswer, rfl, rfl⟩
  exact Cache.live?_of_mem hentry rfl

theorem concat {pair : String × String}
    (hpair : pair ∈ done ∨ ∃ e, answer pair = .error e) :
    HoldsAnswers start answer capacity (done ++ [pair]) c where
  capacity_le := h.capacity_le
  mem_iff key e := by
    rw [h.mem_iff]
    constructor
    · rintro ⟨other, hother, hrest⟩
      exact ⟨other, List.mem_append_left _ hother, hrest⟩
    · rintro ⟨other, hother, catalog, hcatalog, hrest⟩
      rcases List.mem_append.mp hother with hother | hother
      · exact ⟨other, hother, catalog, hcatalog, hrest⟩
      · obtain rfl := List.mem_singleton.mp hother
        rcases hpair with hmem | ⟨_, herror⟩
        · exact ⟨other, hmem, catalog, hcatalog, hrest⟩
        · rw [herror] at hcatalog
          cases hcatalog

section Distinct

variable (hkeys : ∀ pair ∈ pairs, ∀ other ∈ pairs,
    cacheKey start pair.1 pair.2 = cacheKey start other.1 other.2 → pair = other)
  (hdone : done ⊆ pairs) {pair : String × String} (hpair : pair ∈ pairs)

include hkeys hdone hpair

theorem of_live? {found : Catalog}
    (hlive : c.live? (cacheKey start pair.1 pair.2) = some found) :
    pair ∈ done ∧ answer pair = .ok found := by
  obtain ⟨e, hmem, -, rfl⟩ := Cache.mem_entries_of_live? hlive
  obtain ⟨other, hother, catalog, hcatalog, hkey, rfl⟩ := (h.mem_iff _ _).mp hmem
  obtain rfl := hkeys pair hpair other (hdone hother) hkey
  exact ⟨hother, hcatalog⟩

omit hkeys in
theorem room : (cacheKey start pair.1 pair.2 ::
    c.keys.filter (· ≠ cacheKey start pair.1 pair.2)).length ≤ pairs.toFinset.card := by
  have hnodup : c.keys.Nodup := c.nodup_keys
  rw [← List.toFinset_card_of_nodup (Cache.nodup_cons_filter hnodup _)]
  refine Nat.le_trans (Finset.card_le_card ?_)
    (Finset.card_image_le (f := fun pair => cacheKey start pair.1 pair.2))
  intro key hkey
  rw [Finset.mem_image]
  rcases List.mem_cons.mp (List.mem_toFinset.mp hkey) with rfl | hkey
  · exact ⟨pair, List.mem_toFinset.mpr hpair, rfl⟩
  · obtain ⟨⟨key, e⟩, hmem, rfl⟩ := List.mem_map.mp (List.mem_of_mem_filter hkey)
    obtain ⟨other, hother, -, -, rfl, -⟩ := (h.mem_iff _ _).mp hmem
    exact ⟨other, List.mem_toFinset.mpr (hdone hother), rfl⟩

theorem set (hroom : pairs.toFinset.card ≤ capacity) {catalog : Catalog}
    (hanswer : answer pair = .ok catalog) :
    HoldsAnswers start answer capacity (done ++ [pair])
      (c.set (cacheKey start pair.1 pair.2) catalog none) where
  capacity_le := h.capacity_le
  mem_iff key e := by
    have hplaces := Nat.le_trans (h.room hdone hpair) (Nat.le_trans hroom h.capacity_le)
    rw [Cache.mem_entries_set_iff hplaces, h.mem_iff]
    constructor
    · rintro (⟨hkey, he⟩ | ⟨⟨other, hother, hrest⟩, -⟩)
      · exact ⟨pair, by simp, catalog, hanswer, hkey, he⟩
      · exact ⟨other, List.mem_append_left _ hother, hrest⟩
    · rintro ⟨other, hother, found, hfound, rfl, rfl⟩
      by_cases hsame : other = pair
      · subst hsame
        rw [hanswer] at hfound
        exact Or.inl ⟨rfl, by rw [Except.ok.inj hfound]⟩
      · have hother : other ∈ done := by simpa [hsame] using hother
        exact Or.inr ⟨⟨other, hother, found, hfound, rfl, rfl⟩,
          fun hkey => hsame (hkeys other (hdone hother) pair hpair hkey)⟩

end Distinct

end HoldsAnswers

/-! ## Loads -/

variable {σ : Type}

def behindCache (loader : Loader σ) (start : String) :
    Loader (Cache × List (Unit × String × String) × σ) :=
  cached Cache.backend.onLeft start none (loader.logged ()).onRight

def asked (loader : Loader σ) (start : String) (capacity : Nat)
    (pairs : List (String × String)) (state : σ) : List (String × String) :=
  ((loader.behindCache start).loadAll pairs (Cache.ofCapacity capacity, [], state)).2.2.1.map
    Prod.snd

theorem get_onLeft_backend {ρ : Type} (key : String) (c : Cache) (other : ρ) :
    Cache.backend.onLeft.get key (c, other) = (.ok (c.live? key), (c.get key).2, other) := by
  rw [← Cache.get_fst]
  rfl

theorem count_append_unless {done reached : List (String × String)} {p : String × String → Bool}
    {other : String × String}
    (h : reached.count other = if p other then min 1 (done.count other) else done.count other)
    (pair : String × String) :
    (reached ++ if pair ∈ done ∧ p pair = true then [] else [pair]).count other =
      if p other then min 1 ((done ++ [pair]).count other) else (done ++ [pair]).count other := by
  rw [List.count_append, List.count_append, h]
  by_cases hsame : pair = other
  · subst hsame
    cases hp : p pair with
    | false => simp
    | true =>
        by_cases hmem : pair ∈ done
        · have hpos := List.count_pos_iff.mpr hmem
          simp [hmem]
        · simp [hmem, List.count_eq_zero.mpr hmem]
  · have hnone : [pair].count other = 0 := List.count_eq_zero.mpr fun hmem =>
      hsame (List.mem_singleton.mp hmem).symm
    have hlast : (if pair ∈ done ∧ p pair = true then [] else [pair]).count other = 0 := by
      split
      · exact List.count_nil
      · exact hnone
    rw [hnone, hlast, Nat.add_zero, Nat.add_zero]

section Run

variable {loader : Loader σ} {answer : String × String → Except LoadError Catalog}
  (hanswer : ∀ pair state, (loader pair.1 pair.2 state).1 = answer pair) {start : String}
  {pairs : List (String × String)}
  (hkeys : ∀ pair ∈ pairs, ∀ other ∈ pairs,
    cacheKey start pair.1 pair.2 = cacheKey start other.1 other.2 → pair = other)
  {capacity : Nat} (hroom : pairs.toFinset.card ≤ capacity)

include hanswer hkeys hroom

/-- A load is answered by the cache exactly if the pair was loaded before and its answer can be
saved. The loader is asked otherwise, and what it gives is held from then on. -/
theorem behindCache_step {done : List (String × String)} (hdone : done ⊆ pairs)
    {pair : String × String} (hpair : pair ∈ pairs) {c : Cache}
    (h : HoldsAnswers start answer capacity done c) (log : List (Unit × String × String))
    (state : σ) :
    ∃ c' state', loader.behindCache start pair.1 pair.2 (c, log, state) =
        (answer pair, c',
          log ++ (if pair ∈ done ∧ isSaved (answer pair) = true then [] else [((), pair)]),
          state') ∧
      HoldsAnswers start answer capacity (done ++ [pair]) c' := by
  have hget := get_onLeft_backend (cacheKey start pair.1 pair.2) c (log, state)
  by_cases hsaved : pair ∈ done ∧ isSaved (answer pair) = true
  · rw [if_pos hsaved, List.append_nil]
    obtain ⟨hmem, hsaved⟩ := hsaved
    cases hcatalog : answer pair with
    | error e =>
        rw [hcatalog] at hsaved
        cases hsaved
    | ok catalog =>
        rw [hcatalog] at hsaved
        rw [h.live?_of_mem hmem hcatalog] at hget
        exact ⟨_, _, cached_of_found none hget (by simpa [isSaved] using hsaved),
          (h.get _).concat (Or.inl hmem)⟩
  · rw [if_neg hsaved]
    have hempty : ∀ found, (.ok (c.live? (cacheKey start pair.1 pair.2)) :
        Except CacheError (Option Catalog)) = .ok (some found) → found.isEmpty = true := by
      intro found hfound
      obtain ⟨hmem, hcatalog⟩ := h.of_live? hkeys hdone hpair (Except.ok.inj hfound)
      by_contra hne
      exact hsaved ⟨hmem, by simpa [hcatalog, isSaved] using hne⟩
    have hload : (loader.logged ()).onRight pair.1 pair.2
        ((c.get (cacheKey start pair.1 pair.2)).2, log, state) =
        (answer pair, (c.get (cacheKey start pair.1 pair.2)).2, log ++ [((), pair)],
          (loader pair.1 pair.2 state).2) := by
      rw [← hanswer pair state]
      rfl
    cases hcatalog : answer pair with
    | error e =>
        rw [hcatalog] at hload
        exact ⟨_, _, cached_of_failed_load none hget hempty hload,
          (h.get _).concat (Or.inr ⟨e, hcatalog⟩)⟩
    | ok catalog =>
        rw [hcatalog] at hload
        exact ⟨_, _, cached_of_load none hget hempty hload,
          (h.get _).set hkeys hdone hpair hroom hcatalog⟩

theorem behindCache_run {done : List (String × String)} (hdone : done ⊆ pairs) (state : σ) :
    ∃ c log last, (loader.behindCache start).loadAll done (Cache.ofCapacity capacity, [], state) =
        (done.map answer, c, log, last) ∧
      HoldsAnswers start answer capacity done c ∧
      ∀ pair, (log.map Prod.snd).count pair =
        if isSaved (answer pair) = true then min 1 (done.count pair) else done.count pair := by
  -- The cache before a load holds what was loaded so far; the counts follow the log.
  induction done using List.reverseRecOn with
  | nil => exact ⟨_, _, _, rfl, HoldsAnswers.ofCapacity, fun pair => by simp⟩
  | append_singleton done pair ih =>
      obtain ⟨hearlier, hlast⟩ := List.append_subset.mp hdone
      have hpair : pair ∈ pairs := hlast (List.mem_singleton_self pair)
      obtain ⟨c, log, last, hrun, hholds, hcount⟩ := ih hearlier
      obtain ⟨c', last', hstep, hholds'⟩ :=
        behindCache_step hanswer hkeys hroom hearlier hpair hholds log last
      refine ⟨c', _, last', by rw [loadAll_concat, hrun, hstep, List.map_append]; rfl, hholds', ?_⟩
      intro other
      rw [List.map_append, apply_ite (List.map Prod.snd)]
      exact count_append_unless (p := fun pair => isSaved (answer pair)) (hcount other) pair

/-- A bounded cache with room for all pairs that are loaded saves exactly the repeated loads of
pairs with texts. The loader behind it is asked once for each of them, at every load for a pair
that has an empty catalog or an error, and for no pair that is not loaded. -/
theorem asked_of_room (state : σ) :
    ((loader.behindCache start).loadAll pairs (Cache.ofCapacity capacity, [], state)).1 =
        pairs.map answer ∧
      (∀ pair ∈ pairs, ∀ c, answer pair = .ok c → c.isEmpty = false →
        (asked loader start capacity pairs state).count pair = 1) ∧
      (∀ pair ∈ pairs, (answer pair = .ok .empty ∨ ∃ e, answer pair = .error e) →
        (asked loader start capacity pairs state).count pair = pairs.count pair) ∧
      asked loader start capacity pairs state ⊆ pairs := by
  obtain ⟨c, log, last, hrun, -, hcount⟩ :=
    behindCache_run hanswer hkeys hroom (List.Subset.refl pairs) state
  rw [asked, hrun]
  refine ⟨rfl, ?_, ?_, ?_⟩
  · intro pair hpair c hcatalog hne
    have hpos := List.count_pos_iff.mpr hpair
    have hsaved : isSaved (answer pair) = true := by rw [hcatalog, isSaved, hne]; rfl
    have hpair := hcount pair
    rw [if_pos hsaved] at hpair
    show (log.map Prod.snd).count pair = 1
    omega
  · intro pair hpair hunsaved
    have hnot : isSaved (answer pair) = false := by
      rcases hunsaved with hempty | ⟨e, herror⟩
      · rw [hempty]
        rfl
      · rw [herror]
        rfl
    have hpair := hcount pair
    rwa [hnot, if_neg Bool.false_ne_true] at hpair
  · intro pair hmem
    have hpos : 0 < (log.map Prod.snd).count pair := List.count_pos_iff.mpr hmem
    rw [hcount] at hpos
    exact List.count_pos_iff.mp (by split at hpos <;> omega)

end Run

/-- Loads of a pair with texts, of one whose catalog is broken and of one that has none. -/
theorem asked_of_room_three_pairs :
    let greeting := Catalog.ofList [("hello", .text "Hello")]
    let broken := LoadError.invalid "de.json" "not a mapping"
    let answer : String × String → Except LoadError Catalog := fun pair =>
      if pair = ("app", "en") then .ok greeting
      else if pair = ("app", "de") then .error broken else .ok .empty
    let loader : Loader Nat := fun domain locale count => (answer (domain, locale), count + 1)
    let pairs := [("app", "en"), ("app", "de"), ("app", "fr"), ("app", "en"), ("app", "de"),
      ("app", "fr"), ("app", "en"), ("app", "fr")]
    (∀ pair state, (loader pair.1 pair.2 state).1 = answer pair) ∧
    (∀ pair ∈ pairs, ∀ other ∈ pairs, cacheKey "i18n:" pair.1 pair.2 =
      cacheKey "i18n:" other.1 other.2 → pair = other) ∧
    pairs.toFinset.card ≤ 3 ∧
    (asked loader "i18n:" 3 pairs 0).count ("app", "en") = 1 ∧
    (asked loader "i18n:" 3 pairs 0).count ("app", "de") = 2 ∧
    (asked loader "i18n:" 3 pairs 0).count ("app", "fr") = 3 := by
  intro greeting broken answer loader pairs
  have hanswer : ∀ pair state, (loader pair.1 pair.2 state).1 = answer pair := fun _ _ => rfl
  have hkeys : ∀ pair ∈ pairs, ∀ other ∈ pairs, cacheKey "i18n:" pair.1 pair.2 =
      cacheKey "i18n:" other.1 other.2 → pair = other := by
    decide +kernel
  have hroom : pairs.toFinset.card ≤ 3 := by decide +kernel
  obtain ⟨-, hsaved, hunsaved, -⟩ := asked_of_room hanswer hkeys hroom 0
  exact ⟨hanswer, hkeys, hroom, hsaved ("app", "en") (by decide) greeting rfl rfl,
    hunsaved ("app", "de") (by decide) (Or.inr ⟨broken, rfl⟩),
    hunsaved ("app", "fr") (by decide) (Or.inl rfl)⟩

end Loader

end Phrasebook
