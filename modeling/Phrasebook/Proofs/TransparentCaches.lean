import Phrasebook.Proofs.CacheCalls
import Phrasebook.Proofs.CachedLoads

/-!
# Transparent caches

A loader with a cache before it gives what the loader behind gives, whatever the cache loses,
forgets or fails to do, as long as what it gives back was once written under the same key and no
two pairs have one key. What is asked of the cache is said of the calls that are made of it.
-/

namespace Phrasebook

variable {σ ρ τ : Type}

namespace CacheBackend

def onLeft (store : CacheBackend σ) : CacheBackend (σ × ρ) where
  get key := fun (state, other) =>
    let (result, state) := store.get key state
    (result, state, other)
  set key catalog timeToLive := fun (state, other) =>
    let (result, state) := store.set key catalog timeToLive state
    (result, state, other)

inductive Fault where
  /-- It is not made at all. -/
  | refused
  /-- It is made, and its result is lost. -/
  | lost

def faultError : CacheError := .backend "unavailable"

def withFaults (store : CacheBackend σ) (fault : Nat → Option Fault) :
    CacheBackend (σ × Nat) where
  get key := fun (state, count) =>
    match fault count with
    | none =>
      let (result, state) := store.get key state
      (result, state, count + 1)
    | some .refused => (.error faultError, state, count + 1)
    | some .lost => (.error faultError, (store.get key state).2, count + 1)
  set key catalog timeToLive := fun (state, count) =>
    match fault count with
    | none =>
      let (result, state) := store.set key catalog timeToLive state
      (result, state, count + 1)
    | some .refused => (.error faultError, state, count + 1)
    | some .lost => (.error faultError, (store.set key catalog timeToLive state).2, count + 1)

end CacheBackend

/-- The bounded cache in the course of time: at some of its calls the entry that is read has
expired since it was written, and is removed. -/
def Cache.aging (expires : Nat → Bool) : CacheBackend (Cache × Nat) where
  get key := fun (c, count) =>
    if expires count then (.ok none, c.remove key, count + 1)
    else
      let (result, c) := backend.get key c
      (result, c, count + 1)
  set key catalog timeToLive := fun (c, count) =>
    let (result, c) := backend.set key catalog timeToLive c
    (result, c, count + 1)

namespace Loader

def WritesAnswers (start : String) (answer : String × String → Except LoadError Catalog)
    (pairs : List (String × String)) (calls : List CacheCall) : Prop :=
  ∀ key c result, .set key c result ∈ calls →
    ∃ pair ∈ pairs, cacheKey start pair.1 pair.2 = key ∧ answer pair = .ok c

section Transparent

variable {store : CacheBackend σ} {start : String} {timeToLive : Option Nat} {loader : Loader σ}
  {answer : String × String → Except LoadError Catalog}

theorem CachedLoad.writesAnswers {pair : String × String} {calls more : List CacheCall}
    {state last : σ} {result : Except LoadError Catalog}
    (h : CachedLoad store start timeToLive loader pair.1 pair.2 calls state result more last)
    (hanswer : ∀ pair state, (loader pair.1 pair.2 state).1 = answer pair)
    {pairs : List (String × String)} (hwrites : WritesAnswers start answer pairs calls) :
    WritesAnswers start answer (pairs ++ [pair]) more := by
  intro key c written hmem
  have hearlier : .set key c written ∈ calls →
      ∃ other ∈ pairs ++ [pair], cacheKey start other.1 other.2 = key ∧ answer other = .ok c := by
    intro hcalls
    obtain ⟨other, hother, hrest⟩ := hwrites key c written hcalls
    exact ⟨other, List.mem_append_left _ hother, hrest⟩
  cases h with
  | found => exact hearlier (by simpa using hmem)
  | failed => exact hearlier (by simpa using hmem)
  | @loaded _ loaded after last _ hload =>
      rw [List.mem_append, List.mem_singleton] at hmem
      rcases hmem with hmem | hmem
      · exact hearlier (by simpa using hmem)
      · cases hmem
        have hpair := hanswer pair after
        rw [hload] at hpair
        exact ⟨pair, by simp, rfl, hpair.symm⟩

theorem CachedLoad.eq_answer {pair : String × String} {calls more : List CacheCall}
    {state last : σ} {result : Except LoadError Catalog}
    (h : CachedLoad store start timeToLive loader pair.1 pair.2 calls state result more last)
    (hanswer : ∀ pair state, (loader pair.1 pair.2 state).1 = answer pair)
    {pairs : List (String × String)} (hwrites : WritesAnswers start answer pairs calls)
    (hkeys : ∀ other ∈ pairs,
      cacheKey start other.1 other.2 = cacheKey start pair.1 pair.2 → other = pair)
    (hrecalls : CacheCall.Recalls more) : result = answer pair := by
  cases h with
  | @found c =>
      obtain ⟨written, hset⟩ := hrecalls calls (cacheKey start pair.1 pair.2) c [] rfl
      obtain ⟨other, hother, hkey, hresult⟩ := hwrites _ c written hset
      rw [← hkeys other hother hkey, hresult]
  | @failed _ e after _ _ hload =>
      have hpair := hanswer pair after
      rw [hload] at hpair
      exact hpair
  | @loaded _ c after _ _ hload =>
      have hpair := hanswer pair after
      rw [hload] at hpair
      exact hpair

theorem CachedLoad.exists_more {domain locale : String} {calls more : List CacheCall}
    {state last : σ} {result : Except LoadError Catalog}
    (h : CachedLoad store start timeToLive loader domain locale calls state result more last) :
    ∃ made, more = calls ++ made := by
  cases h with
  | found => exact ⟨_, rfl⟩
  | failed => exact ⟨_, rfl⟩
  | loaded => exact ⟨_, List.append_assoc ..⟩

theorem loadAll_cached_of_recalls
    (hanswer : ∀ pair state, (loader pair.1 pair.2 state).1 = answer pair)
    {pairs : List (String × String)}
    (hkeys : ∀ pair ∈ pairs, ∀ other ∈ pairs,
      cacheKey start pair.1 pair.2 = cacheKey start other.1 other.2 → pair = other) {state : σ}
    (hrecalls : CacheCall.Recalls (cacheCalls store start timeToLive loader pairs state)) :
    ((cached store start timeToLive loader).loadAll pairs state).1 = pairs.map answer ∧
      WritesAnswers start answer pairs (cacheCalls store start timeToLive loader pairs state) := by
  induction pairs using List.reverseRecOn with
  | nil => exact ⟨rfl, fun key c result hmem => absurd hmem List.not_mem_nil⟩
  | append_singleton pairs last ih =>
      have hload := cacheCalls_concat store start timeToLive loader pairs last state
      obtain ⟨made, hmade⟩ := hload.exists_more
      have hearlier : CacheCall.Recalls (cacheCalls store start timeToLive loader pairs state) := by
        rw [hmade] at hrecalls
        exact hrecalls.of_append
      obtain ⟨hresults, hwrites⟩ := ih (fun pair hpair other hother => hkeys pair
        (List.mem_append_left _ hpair) other (List.mem_append_left _ hother)) hearlier
      have hlast := hload.eq_answer hanswer hwrites (fun other hother hkey => hkeys other
        (List.mem_append_left _ hother) last (by simp) hkey) hrecalls
      refine ⟨?_, hload.writesAnswers hanswer hwrites⟩
      rw [loadAll_concat, hresults, hlast, List.map_append]
      rfl

end Transparent

end Loader

/-! ## Stores that hold what is written -/

/-- A store gives back only what its state holds, and a state holds only what was written. -/
structure CacheBackend.Keeps (store : CacheBackend σ) (Holds : σ → String → Catalog → Prop) :
    Prop where
  found : ∀ key state c, (store.get key state).1 = .ok (some c) → Holds state key c
  of_get : ∀ key state other c, Holds (store.get key state).2 other c → Holds state other c
  of_set : ∀ key catalog timeToLive state other c,
    Holds (store.set key catalog timeToLive state).2 other c →
      (other = key ∧ c = catalog) ∨ Holds state other c

theorem CacheBackend.Keeps.withFaults {store : CacheBackend σ}
    {Holds : σ → String → Catalog → Prop} (h : store.Keeps Holds) (fault : Nat → Option Fault) :
    (store.withFaults fault).Keeps fun state => Holds state.1 where
  found key state c hfound := by
    unfold CacheBackend.withFaults at hfound
    dsimp only at hfound
    split at hfound
    · exact h.found key state.1 c hfound
    · cases hfound
    · cases hfound
  of_get key state other c hholds := by
    unfold CacheBackend.withFaults at hholds
    dsimp only at hholds
    split at hholds
    · exact h.of_get key state.1 other c hholds
    · exact hholds
    · exact h.of_get key state.1 other c hholds
  of_set key catalog timeToLive state other c hholds := by
    unfold CacheBackend.withFaults at hholds
    dsimp only at hholds
    split at hholds
    · exact h.of_set key catalog timeToLive state.1 other c hholds
    · exact Or.inr hholds
    · exact h.of_set key catalog timeToLive state.1 other c hholds

theorem CacheBackend.Keeps.onLeft {store : CacheBackend σ}
    {Holds : σ → String → Catalog → Prop} (h : store.Keeps Holds) :
    (store.onLeft : CacheBackend (σ × τ)).Keeps fun state => Holds state.1 where
  found key state := h.found key state.1
  of_get key state := h.of_get key state.1
  of_set key catalog timeToLive state := h.of_set key catalog timeToLive state.1

namespace Cache

def Holds (c : Cache) (key : String) (catalog : Catalog) : Prop :=
  ∃ e, (key, e) ∈ c.entries ∧ e.catalog = catalog

theorem holds_of_get {c : Cache} {key other : String} {catalog : Catalog}
    (h : (c.get key).2.Holds other catalog) : c.Holds other catalog := by
  obtain ⟨e, hmem, hcatalog⟩ := h
  exact ⟨e, mem_entries_of_mem_get hmem, hcatalog⟩

theorem holds_of_remove {c : Cache} {key other : String} {catalog : Catalog}
    (h : (c.remove key).Holds other catalog) : c.Holds other catalog := by
  obtain ⟨e, hmem, hcatalog⟩ := h
  exact ⟨e, List.mem_of_mem_filter hmem, hcatalog⟩

theorem keeps_backend : backend.Keeps Holds where
  found key c catalog hfound := by
    have hlive : c.live? key = some catalog := by
      rw [← get_fst]
      exact Except.ok.inj hfound
    obtain ⟨e, hmem, -, hcatalog⟩ := mem_entries_of_live? hlive
    exact ⟨e, hmem, hcatalog⟩
  of_get key c other catalog := holds_of_get
  of_set key catalog timeToLive c other found := by
    rintro ⟨e, hmem, rfl⟩
    rcases mem_entries_put hmem with ⟨rfl, rfl⟩ | ⟨hmem, -⟩
    · exact Or.inl ⟨rfl, rfl⟩
    · exact Or.inr ⟨e, hmem, rfl⟩

theorem keeps_aging (expires : Nat → Bool) : (aging expires).Keeps fun state => Holds state.1 where
  found key state catalog hfound := by
    unfold aging at hfound
    dsimp only at hfound
    split at hfound
    · cases hfound
    · exact keeps_backend.found key state.1 catalog hfound
  of_get key state other catalog hholds := by
    unfold aging at hholds
    dsimp only at hholds
    split at hholds
    · exact holds_of_remove hholds
    · exact keeps_backend.of_get key state.1 other catalog hholds
  of_set key catalog timeToLive state := keeps_backend.of_set key catalog timeToLive state.1

end Cache

namespace Loader

section Keeps

variable {store : CacheBackend σ} {Holds : σ → String → Catalog → Prop} {start : String}
  {timeToLive : Option Nat} {loader : Loader σ}

theorem recalls_of_get (hkeeps : store.Keeps Holds) {key : String} {calls : List CacheCall}
    {state after : σ} {result : Except CacheError (Option Catalog)}
    (hget : store.get key state = (result, after)) (hrecalls : CacheCall.Recalls calls)
    (hholds : ∀ other c, Holds state other c → ∃ written, .set other c written ∈ calls) :
    CacheCall.Recalls (calls ++ [.get key result]) ∧
      ∀ other c, Holds after other c → ∃ written, .set other c written ∈ calls := by
  constructor
  · apply hrecalls.concat
    rintro other found ⟨⟩
    apply hholds
    apply hkeeps.found
    rw [hget]
  · intro other c hafter
    apply hholds
    apply hkeeps.of_get key
    rw [hget]
    exact hafter

theorem CachedLoad.recalls (hkeeps : store.Keeps Holds)
    (hloader : ∀ domain locale state key c,
      Holds (loader domain locale state).2 key c → Holds state key c)
    {domain locale : String} {calls more : List CacheCall} {state last : σ}
    {result : Except LoadError Catalog}
    (h : CachedLoad store start timeToLive loader domain locale calls state result more last)
    (hrecalls : CacheCall.Recalls calls)
    (hholds : ∀ key c, Holds state key c → ∃ written, .set key c written ∈ calls) :
    CacheCall.Recalls more ∧
      ∀ key c, Holds last key c → ∃ written, .set key c written ∈ more := by
  cases h with
  | found hget =>
      obtain ⟨hrecalled, hafter⟩ := recalls_of_get hkeeps hget hrecalls hholds
      refine ⟨hrecalled, fun key c hlast => ?_⟩
      obtain ⟨written, hmem⟩ := hafter key c hlast
      exact ⟨written, List.mem_append_left _ hmem⟩
  | @failed _ _ after _ hget hload =>
      obtain ⟨hrecalled, hafter⟩ := recalls_of_get hkeeps hget hrecalls hholds
      refine ⟨hrecalled, fun key c hlast => ?_⟩
      obtain ⟨written, hmem⟩ := hafter key c (hloader domain locale after key c (hload ▸ hlast))
      exact ⟨written, List.mem_append_left _ hmem⟩
  | @loaded _ loaded after beforeSet hget hload =>
      obtain ⟨hrecalled, hafter⟩ := recalls_of_get hkeeps hget hrecalls hholds
      refine ⟨hrecalled.concat nofun, fun key c hlast => ?_⟩
      rcases hkeeps.of_set _ _ _ _ key c hlast with ⟨rfl, rfl⟩ | hearlier
      · exact ⟨_, List.mem_append_right _ (List.mem_singleton_self _)⟩
      · obtain ⟨written, hmem⟩ := hafter key c
          (hloader domain locale after key c (hload ▸ hearlier))
        exact ⟨written, List.mem_append_left _ (List.mem_append_left _ hmem)⟩

/-- Loads through a store that keeps only what is written, and holds nothing at first, recall only
what was written. -/
theorem recalls_cacheCalls (hkeeps : store.Keeps Holds)
    (hloader : ∀ domain locale state key c,
      Holds (loader domain locale state).2 key c → Holds state key c)
    {state : σ} (hstate : ∀ key c, ¬ Holds state key c) (pairs : List (String × String)) :
    CacheCall.Recalls (cacheCalls store start timeToLive loader pairs state) ∧
      ∀ key c, Holds ((cached store start timeToLive loader).loadAll pairs state).2 key c →
        ∃ written, .set key c written ∈ cacheCalls store start timeToLive loader pairs state := by
  induction pairs using List.reverseRecOn with
  | nil => exact ⟨CacheCall.Recalls.nil, fun key c hholds => absurd hholds (hstate key c)⟩
  | append_singleton pairs last ih =>
      have hload := cacheCalls_concat store start timeToLive loader pairs last state
      exact hload.recalls hkeeps hloader ih.1 ih.2

end Keeps

/-- Loads through any store that gives back what was written under the key are those of the loader
behind: faults do not show, and errors are passed on and never written. The bounded cache is such a
store, whatever its capacity and the time to live are, whenever its entries expire and whichever of
its calls go wrong. -/
theorem loadAll_cached_transparent (start : String) (timeToLive : Option Nat)
    (pairs : List (String × String)) :
    (∀ (σ : Type) (store : CacheBackend σ) (loader : Loader σ) (state : σ)
      (answer : String × String → Except LoadError Catalog),
      (∀ pair state, (loader pair.1 pair.2 state).1 = answer pair) →
      (∀ pair ∈ pairs, ∀ other ∈ pairs,
        cacheKey start pair.1 pair.2 = cacheKey start other.1 other.2 → pair = other) →
      CacheCall.Recalls (cacheCalls store start timeToLive loader pairs state) →
      ((cached store start timeToLive loader).loadAll pairs state).1 = pairs.map answer ∧
        WritesAnswers start answer pairs
          (cacheCalls store start timeToLive loader pairs state)) ∧
    ∀ (τ : Type) (loader : Loader τ) (state : τ) (capacity : Nat) (expires : Nat → Bool)
      (fault : Nat → Option CacheBackend.Fault),
      CacheCall.Recalls (cacheCalls ((Cache.aging expires).withFaults fault).onLeft start timeToLive
        loader.onRight pairs (((Cache.ofCapacity capacity, 0), 0), state)) := by
  constructor
  · intro σ store loader state answer hanswer hkeys hrecalls
    exact loadAll_cached_of_recalls hanswer hkeys hrecalls
  · intro τ loader state capacity expires fault
    refine (recalls_cacheCalls ((Cache.keeps_aging expires).withFaults fault).onLeft ?_ ?_ pairs).1
    · exact fun domain locale state key c hholds => hholds
    · rintro key c ⟨e, hmem, -⟩
      exact absurd hmem List.not_mem_nil

/-- A cache with room for one entry, whose first read fails, whose first write is lost and whose
entries expire now and then. -/
theorem loadAll_cached_unreliable :
    let greeting := Catalog.ofList [("hello", .text "Hello")]
    let broken := LoadError.invalid "de.json" "not a mapping"
    let answer := fun pair => if pair = ("app", "en") then .ok greeting else .error broken
    let store := (Cache.aging fun count => count = 3).withFaults fun count =>
      if count = 0 then some .refused else if count = 2 then some .lost else none
    let pairs := [("app", "en"), ("app", "de"), ("app", "en"), ("app", "en"), ("app", "de")]
    let loader : Loader Unit := fun domain locale state => (answer (domain, locale), state)
    ((cached store.onLeft "i18n:" (some 60) loader.onRight).loadAll pairs
      (((Cache.ofCapacity 1, 0), 0), ())).1 =
        [.ok greeting, .error broken, .ok greeting, .ok greeting, .error broken] := by
  intro greeting broken answer store pairs loader
  have hkeys : ∀ pair ∈ pairs, ∀ other ∈ pairs, cacheKey "i18n:" pair.1 pair.2 =
      cacheKey "i18n:" other.1 other.2 → pair = other := by
    decide +kernel
  have transparent := loadAll_cached_transparent "i18n:" (some 60) pairs
  have hrecalls := transparent.2 Unit loader () 1 (fun count => count = 3) fun count =>
    if count = 0 then some .refused else if count = 2 then some .lost else none
  exact (transparent.1 _ _ _ _ answer (fun _ _ => rfl) hkeys hrecalls).1

end Loader

end Phrasebook
