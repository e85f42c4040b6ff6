import Phrasebook.Proofs.LoadSequences

/-!
# Calls of a cache

A loader with a cache before it reads the store once for every load, and writes it once when it
passes a catalog on. The calls are written down beside the state of the store.
-/

namespace Phrasebook

variable {σ : Type}

inductive CacheCall where
  | get (key : String) (result : Except CacheError (Option Catalog))
  | set (key : String) (catalog : Catalog) (result : Except CacheError Unit)

/-- Every catalog that was given back had been written under the same key before, be it that the
write succeeded or failed. -/
def CacheCall.Recalls (calls : List CacheCall) : Prop :=
  ∀ before key found after, calls = before ++ .get key (.ok (some found)) :: after →
    ∃ result, .set key found result ∈ before

namespace CacheBackend

def recorded (store : CacheBackend σ) : CacheBackend (List CacheCall × σ) where
  get key := fun (calls, state) =>
    let (result, state) := store.get key state
    (result, calls ++ [.get key result], state)
  set key catalog timeToLive := fun (calls, state) =>
    let (result, state) := store.set key catalog timeToLive state
    (result, calls ++ [.set key catalog result], state)

end CacheBackend

namespace Loader

def cacheCalls (store : CacheBackend σ) (start : String) (timeToLive : Option Nat)
    (loader : Loader σ) (pairs : List (String × String)) (state : σ) : List CacheCall :=
  ((cached store.recorded start timeToLive loader.onRight).loadAll pairs ([], state)).2.1

end Loader

/-! ## Records of calls -/

namespace CacheCall

theorem Recalls.nil : Recalls [] := by
  intro before key found after h
  simp at h

theorem Recalls.of_append {calls more : List CacheCall} (h : Recalls (calls ++ more)) :
    Recalls calls := by
  rintro before key found after rfl
  exact h before key found (after ++ more) (by simp)

theorem Recalls.concat {calls : List CacheCall} (h : Recalls calls) {last : CacheCall}
    (hlast : ∀ key found, last = .get key (.ok (some found)) →
      ∃ result, .set key found result ∈ calls) : Recalls (calls ++ [last]) := by
  intro before key found after hsplit
  cases after using List.reverseRecOn with
  | nil =>
      obtain ⟨rfl, hget⟩ := List.append_inj' hsplit rfl
      exact hlast key found (List.singleton_inj.mp hget)
  | append_singleton after _ =>
      rw [← List.cons_append, ← List.append_assoc] at hsplit
      exact h before key found after (List.append_inj' hsplit rfl).1

end CacheCall

namespace Loader

section Load

variable {store : CacheBackend σ} {loader : Loader σ} {start domain locale : String} {state : σ}
  (timeToLive : Option Nat)

theorem cached_of_found {found : Catalog} {after : σ}
    (hget : store.get (cacheKey start domain locale) state = (.ok (some found), after))
    (hne : found.isEmpty = false) :
    cached store start timeToLive loader domain locale state = (.ok found, after) := by
  simp [cached, hget, hne]

theorem cached_of_load {result : Except CacheError (Option Catalog)} {after last : σ}
    {c : Catalog} (hget : store.get (cacheKey start domain locale) state = (result, after))
    (hempty : ∀ found, result = .ok (some found) → found.isEmpty = true)
    (hload : loader domain locale after = (.ok c, last)) :
    cached store start timeToLive loader domain locale state =
      (.ok c, (store.set (cacheKey start domain locale) c timeToLive last).2) := by
  rcases result with e | _ | found
  · simp [cached, hget, hload]
  · simp [cached, hget, hload]
  · simp [cached, hget, hload, hempty found rfl]

theorem cached_of_failed_load {result : Except CacheError (Option Catalog)} {after last : σ}
    {e : LoadError} (hget : store.get (cacheKey start domain locale) state = (result, after))
    (hempty : ∀ found, result = .ok (some found) → found.isEmpty = true)
    (hload : loader domain locale after = (.error e, last)) :
    cached store start timeToLive loader domain locale state = (.error e, last) := by
  rcases result with e | _ | found
  · simp [cached, hget, hload]
  · simp [cached, hget, hload]
  · simp [cached, hget, hload, hempty found rfl]

end Load

section Recorded

variable (store : CacheBackend σ) (start : String) (timeToLive : Option Nat) (loader : Loader σ)

/-- What a load through a cache can do, and which calls it makes: it answers with what it finds,
or it finds nothing of use and passes an error on, or it passes a catalog on and writes it. -/
inductive CachedLoad (domain locale : String) (calls : List CacheCall) (state : σ) :
    Except LoadError Catalog → List CacheCall → σ → Prop where
  | found {c : Catalog} {after : σ} :
      store.get (cacheKey start domain locale) state = (.ok (some c), after) →
      CachedLoad domain locale calls state (.ok c)
        (calls ++ [.get (cacheKey start domain locale) (.ok (some c))]) after
  | failed {result : Except CacheError (Option Catalog)} {e : LoadError} {after last : σ} :
      store.get (cacheKey start domain locale) state = (result, after) →
      loader domain locale after = (.error e, last) →
      CachedLoad domain locale calls state (.error e)
        (calls ++ [.get (cacheKey start domain locale) result]) last
  | loaded {result : Except CacheError (Option Catalog)} {c : Catalog} {after last : σ} :
      store.get (cacheKey start domain locale) state = (result, after) →
      loader domain locale after = (.ok c, last) →
      CachedLoad domain locale calls state (.ok c)
        (calls ++ [.get (cacheKey start domain locale) result] ++
          [.set (cacheKey start domain locale) c
            (store.set (cacheKey start domain locale) c timeToLive last).1])
        (store.set (cacheKey start domain locale) c timeToLive last).2

/-- Writing the calls down changes neither the result nor the state of a load. -/
theorem cachedLoad (domain locale : String) (calls : List CacheCall) (state : σ) :
    ∃ more, cached store.recorded start timeToLive loader.onRight domain locale (calls, state) =
        ((cached store start timeToLive loader domain locale state).1, more,
          (cached store start timeToLive loader domain locale state).2) ∧
      CachedLoad store start timeToLive loader domain locale calls state
        (cached store start timeToLive loader domain locale state).1 more
        (cached store start timeToLive loader domain locale state).2 := by
  cases hget : store.get (cacheKey start domain locale) state with
  | mk result after =>
      have hrecorded : store.recorded.get (cacheKey start domain locale) (calls, state) =
          (result, calls ++ [.get (cacheKey start domain locale) result], after) := by
        simp [CacheBackend.recorded, hget]
      by_cases hfound : ∃ found, result = .ok (some found) ∧ found.isEmpty = false
      · obtain ⟨found, rfl, hne⟩ := hfound
        rw [cached_of_found timeToLive hget hne, cached_of_found timeToLive hrecorded hne]
        exact ⟨_, rfl, .found hget⟩
      · have hempty : ∀ found, result = .ok (some found) → found.isEmpty = true := by
          intro found hresult
          by_contra hne
          exact hfound ⟨found, hresult, by simpa using hne⟩
        cases hload : loader domain locale after with
        | mk answer last =>
            have hright : loader.onRight domain locale
                (calls ++ [.get (cacheKey start domain locale) result], after) =
                (answer, calls ++ [.get (cacheKey start domain locale) result], last) := by
              simp [onRight, hload]
            cases answer with
            | error e =>
                rw [cached_of_failed_load timeToLive hget hempty hload,
                  cached_of_failed_load timeToLive hrecorded hempty hright]
                exact ⟨_, rfl, .failed hget hload⟩
            | ok c =>
                rw [cached_of_load timeToLive hget hempty hload,
                  cached_of_load timeToLive hrecorded hempty hright]
                exact ⟨_, rfl, .loaded hget hload⟩

/-! ## Loads through any store -/

theorem loadAll_recorded (pairs : List (String × String)) (state : σ) :
    (cached store.recorded start timeToLive loader.onRight).loadAll pairs ([], state) =
      (((cached store start timeToLive loader).loadAll pairs state).1,
        cacheCalls store start timeToLive loader pairs state,
        ((cached store start timeToLive loader).loadAll pairs state).2) := by
  induction pairs using List.reverseRecOn with
  | nil => rfl
  | append_singleton pairs last ih =>
      obtain ⟨more, hstep, -⟩ := cachedLoad store start timeToLive loader last.1 last.2
        (cacheCalls store start timeToLive loader pairs state)
        ((cached store start timeToLive loader).loadAll pairs state).2
      rw [cacheCalls, loadAll_concat, loadAll_concat, ih, hstep]

theorem cacheCalls_concat (pairs : List (String × String)) (pair : String × String) (state : σ) :
    CachedLoad store start timeToLive loader pair.1 pair.2
      (cacheCalls store start timeToLive loader pairs state)
      ((cached store start timeToLive loader).loadAll pairs state).2
      (cached store start timeToLive loader pair.1 pair.2
        ((cached store start timeToLive loader).loadAll pairs state).2).1
      (cacheCalls store start timeToLive loader (pairs ++ [pair]) state)
      ((cached store start timeToLive loader).loadAll (pairs ++ [pair]) state).2 := by
  obtain ⟨more, hstep, hload⟩ := cachedLoad store start timeToLive loader pair.1 pair.2
    (cacheCalls store start timeToLive loader pairs state)
    ((cached store start timeToLive loader).loadAll pairs state).2
  have hcalls : cacheCalls store start timeToLive loader (pairs ++ [pair]) state = more := by
    rw [cacheCalls, loadAll_concat, loadAll_recorded, hstep]
  rw [hcalls, loadAll_concat]
  exact hload

end Recorded

end Loader

end Phrasebook
