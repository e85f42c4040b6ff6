import Mathlib.Data.List.Dedup
import Phrasebook.Proofs.CachedLoads
import Phrasebook.Proofs.FirstOccurrences
import Phrasebook.Proofs.ProbeFiles

/-!
# Entries shared by two pairs

The key of a cache entry joins a domain and a locale with `_`, which may occur in both, so two
pairs can have one key. The cache changes a translation exactly when a pair is asked for first
while the entry of another pair is still there under its key.
-/

namespace Phrasebook

namespace Settings

def withCache (s : Settings) (enabled : Bool) : Settings :=
  { s with cache := { s.cache with enabled } }

def translations (s : Settings) (files : Files) (calls : List Translator.Call) :
    Except SettingsError (List String) :=
  s.translator.map fun t => t.answers (s.lookup files) calls s.start

def entryKey (s : Settings) (pair : String × String) : String :=
  Loader.cacheKey s.cache.keyStart pair.1 pair.2

def room (s : Settings) : Nat := max 1 s.cache.capacity

/-- Pairs were asked for, and now another one is, for the first time, while a live entry is
retained under its key. -/
def FindsEntry (s : Settings) (before : List (String × String)) (pair : String × String) : Prop :=
  CatalogDirectory.IsReadable (CatalogDirectory.normalizeExtension s.ext) ∧
    s.cache.timeToLive ≠ some 0 ∧ pair ∉ before ∧
    Cache.Retains s.room (before.eraseDups.map s.entryKey) (s.entryKey pair)

def SharesEntry (s : Settings) (pairs : List (String × String)) : Prop :=
  ∃ before pair after, pairs = before ++ pair :: after ∧ s.FindsEntry before pair

def given (s : Settings) (files : Files) (pair : String × String) : Messages :=
  .ofCatalog (s.catalog files pair)

/-! ## Without a cache -/

theorem answers_layers (s : Settings) (files : Files) (t : Translator)
    (calls : List Translator.Call) :
    t.answers (.ofLoader (s.layers files) .standard) calls s.start =
      calls.map fun call => t.textFrom .standard (s.given files (t.pair call)) call := by
  have hanswer : ∀ pair cache,
      (s.layers files pair.1 pair.2 cache).1 = .ok (s.catalog files pair) := by
    intro pair cache
    rw [s.layers_eq files pair cache]
  apply Translator.answers_eq_map
  intro before pair after _
  exact Snapshots.messages_requestAll hanswer before pair _

/-! ## With a cache -/

def cachedLayers (s : Settings) (files : Files) : Loader Cache :=
  .cached Cache.backend s.cache.keyStart s.cache.timeToLive (s.layers files)

/-- What is true after requests none of which found an entry: the pairs have their own messages,
the cache retains the keys used last, and every entry holds the catalog of a pair with its key. -/
structure Mirrors (s : Settings) (files : Files) (requested : List (String × String))
    (state : State) : Prop where
  keeps : state.1.Keeps (s.given files) requested
  capacity : state.2.capacity = s.room
  keys : state.2.keys = Cache.recent s.room (requested.eraseDups.map s.entryKey)
  entries : ∀ key e, (key, e) ∈ state.2.entries → e.timeToLive = s.cache.timeToLive ∧
    ∃ pair ∈ requested, s.entryKey pair = key ∧ e.catalog = s.catalog files pair

theorem Mirrors.start (s : Settings) (files : Files) : s.Mirrors files [] s.start where
  keeps := Snapshots.Keeps.empty _
  capacity := rfl
  keys := rfl
  entries _ _ h := absurd h (List.not_mem_nil)

theorem Mirrors.miss {s : Settings} {files : Files} {requested : List (String × String)}
    {state : State} (h : s.Mirrors files requested state) {pair : String × String}
    (hpair : pair ∉ requested) (hfinds : ¬ s.FindsEntry requested pair) :
    ∀ found, state.2.live? (s.entryKey pair) = some found → found.isEmpty = true := by
  intro found hfound
  obtain ⟨e, hmem, hexp, rfl⟩ := Cache.mem_entries_of_live? hfound
  obtain ⟨httl, other, -, -, hcatalog⟩ := h.entries _ e hmem
  have hkey : s.entryKey pair ∈ state.2.keys := List.mem_map.mpr ⟨_, hmem, rfl⟩
  rw [h.keys, Cache.mem_recent_iff] at hkey
  have hlive : s.cache.timeToLive ≠ some 0 := by
    rw [← httl]
    intro hzero
    simp [Cache.Entry.isExpired, hzero] at hexp
  have hext : ¬ CatalogDirectory.IsReadable (CatalogDirectory.normalizeExtension s.ext) :=
    fun hext => hfinds ⟨hext, hlive, hpair, hkey⟩
  rw [hcatalog, catalog_of_not_isReadable hext]
  rfl

theorem Mirrors.request {s : Settings} {files : Files} {requested : List (String × String)}
    {state : State} (h : s.Mirrors files requested state) {pair : String × String}
    (hfinds : ¬ s.FindsEntry requested pair) :
    (Snapshots.messages (s.cachedLayers files) pair.1 pair.2 state.1 state.2).1 =
        s.given files pair ∧
      s.Mirrors files (requested ++ [pair])
        (Snapshots.messages (s.cachedLayers files) pair.1 pair.2 state.1 state.2).2 := by
  by_cases hpair : pair ∈ requested
  · rw [h.keeps.request_again _ hpair]
    refine ⟨rfl, h.keeps.concat_of_mem hpair, h.capacity, ?_, ?_⟩
    · rw [eraseDups_concat, if_pos hpair, h.keys]
    · intro key e hmem
      obtain ⟨httl, other, hother, hrest⟩ := h.entries key e hmem
      exact ⟨httl, other, List.mem_append_left _ hother, hrest⟩
  · have hload : s.cachedLayers files pair.1 pair.2 state.2 = (.ok (s.catalog files pair),
        state.2.set (s.entryKey pair) (s.catalog files pair) s.cache.timeToLive) :=
      Loader.cached_of_miss _ (s.layers_eq files pair) (h.miss hpair hfinds)
    rw [h.keeps.request_first hpair hload]
    refine ⟨rfl, h.keeps.insert pair, h.capacity, ?_, ?_⟩
    · rw [eraseDups_concat, if_neg hpair, List.map_append, List.map_singleton,
        Cache.recent_concat, ← h.keys, ← h.capacity]
      exact Cache.keys_put ..
    · intro key e hmem
      rcases Cache.mem_entries_put hmem with ⟨rfl, rfl⟩ | ⟨hmem, -⟩
      · exact ⟨rfl, pair, by simp, rfl, rfl⟩
      · obtain ⟨httl, other, hother, hrest⟩ := h.entries key e hmem
        exact ⟨httl, other, List.mem_append_left _ hother, hrest⟩

theorem mirrors_requestAll {s : Settings} (files : Files) {pairs : List (String × String)}
    (hshares : ¬ s.SharesEntry pairs) :
    s.Mirrors files pairs (Snapshots.requestAll (s.cachedLayers files) pairs s.start) := by
  apply Snapshots.requestAll_induction (s.Mirrors files) (Mirrors.start s files)
  intro before pair after hsplit state h
  exact (h.request fun hfinds => hshares ⟨before, pair, after, hsplit, hfinds⟩).2

theorem SharesEntry.append {s : Settings} {pairs : List (String × String)}
    (h : s.SharesEntry pairs) (rest : List (String × String)) : s.SharesEntry (pairs ++ rest) := by
  obtain ⟨before, pair, after, rfl, hfinds⟩ := h
  exact ⟨before, pair, after ++ rest, by simp, hfinds⟩

theorem answers_cachedLayers {s : Settings} (files : Files) {t : Translator}
    {calls : List Translator.Call} (hshares : ¬ s.SharesEntry (calls.map t.pair)) :
    t.answers (.ofLoader (s.cachedLayers files) .standard) calls s.start =
      calls.map fun call => t.textFrom .standard (s.given files (t.pair call)) call := by
  apply Translator.answers_eq_map
  intro before pair after hsplit
  have hbefore : ¬ s.SharesEntry before := by
    intro h
    rw [hsplit] at hshares
    exact hshares (h.append _)
  exact ((mirrors_requestAll files hbefore).request fun hfinds =>
    hshares ⟨before, pair, after, hsplit, hfinds⟩).1

/-! ## A found entry is seen -/

theorem SharesEntry.first {s : Settings} {pairs : List (String × String)}
    (h : s.SharesEntry pairs) :
    ∃ before pair after, pairs = before ++ pair :: after ∧ s.FindsEntry before pair ∧
      ¬ s.SharesEntry before := by
  induction hn : pairs.length using Nat.strong_induction_on generalizing pairs with
  | _ n ih =>
      obtain ⟨before, pair, after, rfl, hfinds⟩ := h
      by_cases hbefore : s.SharesEntry before
      · obtain ⟨front, first, back, hsplit, hfirst⟩ :=
          ih before.length (by simp [← hn]) hbefore rfl
        exact ⟨front, first, back ++ pair :: after, by simp [hsplit], hfirst⟩
      · exact ⟨before, pair, after, rfl, hfinds, hbefore⟩

/-- A pair that finds an entry is answered from the files of another pair with its key. -/
theorem Mirrors.found {s : Settings} {files : Files} {requested : List (String × String)}
    {state : State} (h : s.Mirrors files requested state) {pair : String × String}
    (hfinds : s.FindsEntry requested pair)
    (hfull : ∀ other, (s.catalog files other).isEmpty = false) :
    ∃ other, other ≠ pair ∧ s.entryKey other = s.entryKey pair ∧
      (Snapshots.messages (s.cachedLayers files) pair.1 pair.2 state.1 state.2).1 =
        s.given files other := by
  obtain ⟨-, httl, hpair, hretained⟩ := hfinds
  rw [← Cache.mem_recent_iff, ← h.keys] at hretained
  have hfresh : ∀ e, (s.entryKey pair, e) ∈ state.2.entries → e.isExpired = false := by
    intro e hmem
    rw [Cache.Entry.isExpired, (h.entries _ e hmem).1]
    simpa using httl
  obtain ⟨found, hfound⟩ := Option.ne_none_iff_exists'.mp (Cache.live?_ne_none hretained hfresh)
  obtain ⟨e, hmem, -, rfl⟩ := Cache.mem_entries_of_live? hfound
  obtain ⟨-, other, hother, hkey, hcatalog⟩ := h.entries _ e hmem
  have hload : s.cachedLayers files pair.1 pair.2 state.2 =
      (.ok e.catalog, (state.2.get (s.entryKey pair)).2) :=
    Loader.cached_of_hit _ _ hfound (by rw [hcatalog]; exact hfull other)
  refine ⟨other, fun heq => hpair (heq ▸ hother), hkey, ?_⟩
  rw [h.keeps.request_first hpair hload, hcatalog]
  rfl

theorem translations_withCache {s : Settings} {t : Translator} (ht : s.translator = .ok t)
    (files : Files) (calls : List Translator.Call) :
    (s.withCache true).translations files calls =
      .ok (t.answers (.ofLoader (s.cachedLayers files) .standard) calls s.start) := by
  have ht : (s.withCache true).translator = .ok t := ht
  rw [translations, ht]
  rfl

theorem translations_withoutCache {s : Settings} {t : Translator} (ht : s.translator = .ok t)
    (files : Files) (calls : List Translator.Call) :
    (s.withCache false).translations files calls =
      .ok (t.answers (.ofLoader (s.layers files) .standard) calls s.start) := by
  have ht : (s.withCache false).translator = .ok t := ht
  rw [translations, ht]
  rfl

theorem of_translator_eq_ok {s : Settings} {t : Translator} (ht : s.translator = .ok t) :
    (∃ style : PlaceholderStyle, t.wrapper = style.wrapper) ∧
      ∃ last, s.directories.getLast? = some last := by
  unfold translator at ht
  split at ht
  · cases ht
  · rename_i style _
    split at ht
    · cases ht
    · rename_i hdirectories
      simp only [Except.ok.injEq] at ht
      refine ⟨⟨style, ht ▸ rfl⟩, ?_⟩
      cases hlast : s.directories.getLast? with
      | none => simp_all
      | some last => exact ⟨last, rfl⟩

/-- If a pair finds an entry, there are files for which calls that ask for the same pairs get
different texts with and without the cache. -/
theorem exists_answers_ne {s : Settings} {t : Translator} (ht : s.translator = .ok t)
    {calls : List Translator.Call} (hshares : s.SharesEntry (calls.map t.pair)) :
    ∃ files, t.answers (.ofLoader (s.cachedLayers files) .standard) (calls.map Probe.call) s.start ≠
      t.answers (.ofLoader (s.layers files) .standard) (calls.map Probe.call) s.start := by
  obtain ⟨⟨style, hstyle⟩, last, hlast⟩ := of_translator_eq_ok ht
  obtain ⟨before, pair, after, hsplit, hfinds, hbefore⟩ := hshares.first
  have hcatalog := Probe.catalog_files hfinds.1 hlast ((s.directory last).path pair.1 pair.2)
  refine ⟨Probe.files ((s.directory last).path pair.1 pair.2), fun heq => ?_⟩
  generalize Probe.files ((s.directory last).path pair.1 pair.2) = files at hcatalog heq
  -- Up to the first pair that finds an entry both runs agree; there the texts of two files differ.
  obtain ⟨callsBefore, rest, rfl, rfl, hrest⟩ := List.map_eq_append_iff.mp hsplit
  obtain ⟨call, callsAfter, rfl, rfl, rfl⟩ := List.map_eq_cons_iff.mp hrest
  have hpairs : (callsBefore.map Probe.call).map t.pair = callsBefore.map t.pair := by
    simp [Function.comp_def, Probe.pair_call]
  obtain ⟨other, hne, hkey, hfound⟩ := (mirrors_requestAll files hbefore).found hfinds
    fun other => by rw [hcatalog]; rfl
  have hpath := (s.directory last).path_ne_of_cacheKey_eq hne hkey
  rw [List.map_append, List.map_cons, Translator.answers_append, Translator.answers_cons,
    hpairs, Probe.pair_call, hfound, given, hcatalog, beq_eq_false_iff_ne.mpr hpath,
    Probe.textFrom_call hstyle, s.answers_layers, List.map_append, List.map_cons,
    Probe.pair_call, given, hcatalog, beq_self_eq_true, Probe.textFrom_call hstyle] at heq
  have htexts := (List.append_inj heq (by simp [Translator.length_answers])).2
  simp [Probe.text] at htexts

/-- Without a cache each call is answered from the files of its own pair, and with one the calls
that ask for the same pairs in the same order always get the same texts exactly if no pair finds
the entry of another one. -/
theorem translations_withCache_eq_iff (s : Settings) (t : Translator)
    (ht : s.translator = .ok t) :
    (∀ files calls, (s.withCache false).translations files calls =
      .ok (calls.map fun call => t.textFrom .standard (s.given files (t.pair call)) call)) ∧
    ∀ calls : List Translator.Call,
      (∀ files, ∀ others : List Translator.Call, others.map t.pair = calls.map t.pair →
        (s.withCache true).translations files others =
          (s.withCache false).translations files others) ↔
      ¬ s.SharesEntry (calls.map t.pair) := by
  refine ⟨fun files calls => ?_, fun calls => ⟨fun hsame hshares => ?_, fun hshares => ?_⟩⟩
  · rw [translations_withoutCache ht]
    exact congrArg Except.ok (s.answers_layers files t calls)
  · obtain ⟨files, hne⟩ := exists_answers_ne ht hshares
    have hpairs : (calls.map Probe.call).map t.pair = calls.map t.pair := by
      simp [Function.comp_def, Probe.pair_call]
    have heq := hsame files _ hpairs
    rw [translations_withCache ht, translations_withoutCache ht] at heq
    exact hne (Except.ok.inj heq)
  · intro files others hpairs
    rw [← hpairs] at hshares
    rw [translations_withCache ht, translations_withoutCache ht, answers_cachedLayers files hshares]
    exact congrArg Except.ok (s.answers_layers files t others).symm

theorem translations_withCache_ne_for_shared_key :
    default.translator = .ok (.ofLocale "en_US" PlaceholderStyle.percent.wrapper) ∧
    ¬ ∀ files, ∀ others : List Translator.Call,
      others.map (Translator.ofLocale "en_US" PlaceholderStyle.percent.wrapper).pair =
        [("a", "b_c"), ("a_b", "c")] →
      (default.withCache true).translations files others =
        (default.withCache false).translations files others := by
  refine ⟨rfl, fun hsame => ?_⟩
  apply ((translations_withCache_eq_iff default _ rfl).2
    [⟨"a:x", [], some "b_c"⟩, ⟨"a_b:x", [], some "c"⟩]).mp hsame
  refine ⟨[("a", "b_c")], ("a_b", "c"), [], rfl, Or.inr (Or.inl rfl), nofun, by decide, ?_⟩
  exact ⟨[], [], rfl, List.not_mem_nil, by decide⟩

end Settings

end Phrasebook
