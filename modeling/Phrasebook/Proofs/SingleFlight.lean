import Mathlib.Data.List.Nodup
import Phrasebook.Proofs.LoadSequences
import Phrasebook.Proofs.Runs
import Phrasebook.Proofs.ThreadSteps

/-!
# Single flight

However the steps of calls come one after the other, each pair of a domain and a locale is loaded
at most once, and what was loaded for it is its answer from then on. The reason is that only the
holder of the lock loads and inserts, and that it looks again before it does.
-/

namespace Phrasebook

namespace LoadRecord

def pair (r : LoadRecord) : String × String := (r.domain, r.locale)

def catalog (r : LoadRecord) : Catalog :=
  match r.result with
  | .ok c => c
  | .error _ => .empty

def messages (r : LoadRecord) : Messages := .ofCatalog r.catalog

theorem ofLoad_result (r : LoadRecord) : Snapshots.ofLoad r.result = r.messages := by
  unfold messages catalog
  cases r.result with
  | ok c => rfl
  | error e => rfl

end LoadRecord

namespace Threads

variable {σ : Type} {loader : Loader σ} {t t' : Threads σ} {thread : Nat} {c : Call}

/-! ## Loads -/

theorem CallStep.loads (hstep : CallStep loader t thread c t') :
    (t'.loads = t.loads ∧ t'.state = t.state) ∨
      ∃ result, c.phase = .loading ∧ loader c.domain c.locale t.state = (result, t'.state) ∧
        t'.loads = t.loads ++ [⟨c.domain, c.locale, result⟩] := by
  cases hstep with
  | loaded hphase hload => exact Or.inr ⟨_, hphase, hload, rfl⟩
  | _ => exact Or.inl ⟨rfl, rfl⟩

def Logs (loader : Loader σ) (state : σ) (t : Threads σ) : Prop :=
  loader.loadAll (t.loads.map LoadRecord.pair) state = (t.loads.map LoadRecord.result, t.state)

theorem Logs.apply {state : σ} (h : t.Logs loader state) (event : Event) :
    (t.apply loader event).Logs loader state := by
  apply apply_keeps h
  · exact fun _ _ => h
  · intro thread c t' _ hstep
    unfold Logs at h ⊢
    rcases hstep.loads with ⟨hloads, hstate⟩ | ⟨result, -, hload, hloads⟩
    · rw [hloads, hstate]
      exact h
    · rw [hloads, List.map_append, List.map_append, List.map_singleton, Loader.loadAll_concat, h]
      simp [LoadRecord.pair, hload]

/-! ## Insertions -/

def Inserts (t : Threads σ) (pair : String × String) (event : Event) : Prop :=
  ∃ thread c messages, event = .step thread ∧ t.calls[thread]? = some c ∧ c.pair = pair ∧
    c.phase = .inserting messages

theorem CallStep.snapshots (hstep : CallStep loader t thread c t') :
    (t'.snapshots = t.snapshots ∧ ∀ messages, c.phase ≠ .inserting messages) ∨
      ∃ messages, c.phase = .inserting messages ∧
        t'.snapshots = t.snapshots.insert c.domain c.locale messages := by
  cases hstep with
  | inserted hphase => exact Or.inr ⟨_, hphase, rfl⟩
  | found hphase | missed hphase | locked hphase | blocked hphase | foundAgain hphase
  | missedAgain hphase | loaded hphase | released hphase | ended hphase =>
      left
      rw [hphase]
      exact ⟨rfl, nofun⟩

theorem messages?_insert_call (s : Snapshots) (c : Call) (pair : String × String)
    (messages : Messages) :
    (s.insert c.domain c.locale messages).messages? pair.1 pair.2 =
      if pair = c.pair then some messages else s.messages? pair.1 pair.2 :=
  Snapshots.messages?_insert s c.pair pair messages

theorem snapshots_apply (loader : Loader σ) (t : Threads σ) (event : Event) :
    ((t.apply loader event).snapshots = t.snapshots ∧ ∀ pair, ¬ t.Inserts pair event) ∨
      ∃ thread c messages, event = .step thread ∧ t.calls[thread]? = some c ∧
        c.phase = .inserting messages ∧
        (t.apply loader event).snapshots = t.snapshots.insert c.domain c.locale messages := by
  cases event with
  | begin domain locale =>
      left
      refine ⟨rfl, ?_⟩
      rintro pair ⟨_, _, _, hevent, -⟩
      cases hevent
  | step thread =>
      cases hcall : t.calls[thread]? with
      | none =>
          left
          refine ⟨by rw [apply_step_none loader hcall], ?_⟩
          rintro pair ⟨_, c, _, ⟨⟩, hcall', -⟩
          cases hcall.symm.trans hcall'
      | some c =>
          rw [apply_step loader hcall]
          rcases (callStep_stepCall loader t thread c).snapshots with
            ⟨hsame, hphase⟩ | ⟨messages, hphase, hinsert⟩
          · left
            refine ⟨hsame, ?_⟩
            rintro pair ⟨_, c', messages, ⟨⟩, hcall', -, hphase'⟩
            obtain rfl := Option.some.inj (hcall.symm.trans hcall')
            exact hphase messages hphase'
          · exact Or.inr ⟨thread, c, messages, rfl, hcall, hphase, hinsert⟩

theorem isLoaded_apply (loader : Loader σ) (t : Threads σ) (event : Event)
    (pair : String × String) :
    (t.apply loader event).snapshots.isLoaded pair.1 pair.2 = true ↔
      t.snapshots.isLoaded pair.1 pair.2 = true ∨ t.Inserts pair event := by
  rcases snapshots_apply loader t event with
    ⟨hsame, hnot⟩ | ⟨thread, c, messages, rfl, hcall, hphase, hinsert⟩
  · rw [hsame, or_iff_left (hnot pair)]
  · have hinserts : t.Inserts pair (.step thread) ↔ pair = c.pair := by
      constructor
      · rintro ⟨_, c', _, ⟨⟩, hcall', rfl, -⟩
        rw [Option.some.inj (hcall.symm.trans hcall')]
      · rintro rfl
        exact ⟨thread, c, messages, rfl, hcall, rfl, hphase⟩
    unfold Snapshots.isLoaded
    rw [hinserts, hinsert, messages?_insert_call]
    by_cases heq : pair = c.pair
    · simp [heq]
    · simp [heq]

theorem isLoaded_run (loader : Loader σ) (t : Threads σ) (events : List Event)
    (pair : String × String) :
    (t.run loader events).snapshots.isLoaded pair.1 pair.2 = true ↔
      t.snapshots.isLoaded pair.1 pair.2 = true ∨
        ∃ before event after, events = before ++ event :: after ∧
          (t.run loader before).Inserts pair event := by
  induction events generalizing t with
  | nil =>
      have hnone : ¬ ∃ before event after, [] = before ++ event :: after ∧
          (t.run loader before).Inserts pair event := by
        rintro ⟨before, event, after, hsplit, -⟩
        simp at hsplit
      rw [or_iff_left hnone]
      rfl
  | cons event events ih =>
      rw [run_cons, ih, isLoaded_apply, or_assoc]
      apply or_congr_right
      constructor
      · rintro (hfirst | ⟨before, later, after, rfl, hlater⟩)
        · exact ⟨[], event, events, rfl, hfirst⟩
        · exact ⟨event :: before, later, after, rfl, hlater⟩
      · rintro ⟨before, later, after, hsplit, hlater⟩
        cases before with
        | nil =>
            obtain ⟨rfl, rfl⟩ := List.cons.inj hsplit
            exact Or.inl hlater
        | cons first before =>
            obtain ⟨rfl, rfl⟩ := List.cons.inj hsplit
            exact Or.inr ⟨before, later, after, rfl, hlater⟩

/-! ## Answers -/

def Inserting (t : Threads σ) (r : LoadRecord) : Prop :=
  ∃ (thread : Nat) (c : Call), t.calls[thread]? = some c ∧ c.pair = r.pair ∧
    c.phase = .inserting r.messages

theorem Inserting.of_set {r : LoadRecord} {phase : Call.Phase} (h : t.Inserting r)
    (hcall : t.calls[thread]? = some c) (hcalls : t'.calls = t.calls.set thread { c with phase })
    (hother : c.pair = r.pair → c.phase ≠ .inserting r.messages) : t'.Inserting r := by
  obtain ⟨other, d, hd, hpair, hphase⟩ := h
  refine ⟨other, d, ?_, hpair, hphase⟩
  rw [hcalls, getElem?_set_call hcall, if_neg]
  · exact hd
  · rintro rfl
    obtain rfl := Option.some.inj (hcall.symm.trans hd)
    exact hother hpair hphase

/-- What the loads and the snapshots have to be for a call of a pair to stand where it does. -/
def Fits (t : Threads σ) (pair : String × String) : Call.Phase → Prop
  | .start | .waiting | .checking => True
  | .loading => ∀ r ∈ t.loads, r.pair ≠ pair
  | .inserting messages => ∃ r ∈ t.loads, r.pair = pair ∧ r.messages = messages
  | .releasing messages | .done messages => t.snapshots.messages? pair.1 pair.2 = some messages

theorem Fits.later {pair : String × String} {phase : Call.Phase} (h : t.Fits pair phase)
    (hloads : t.loads ⊆ t'.loads) (hloading : phase = .loading → t'.loads = t.loads)
    (hmessages : ∀ messages, t.snapshots.messages? pair.1 pair.2 = some messages →
      t'.snapshots.messages? pair.1 pair.2 = some messages) : t'.Fits pair phase := by
  cases phase with
  | start | waiting | checking => trivial
  | loading =>
      unfold Fits
      rw [hloading rfl]
      exact h
  | inserting messages =>
      obtain ⟨r, hr, hrest⟩ := h
      exact ⟨r, hloads hr, hrest⟩
  | releasing messages | done messages => exact hmessages messages h

/-- The snapshots are the messages of the loads, but for a load whose messages are on their way. -/
structure Recorded (t : Threads σ) : Prop where
  once : (t.loads.map LoadRecord.pair).Nodup
  loaded : ∀ pair messages, t.snapshots.messages? pair.1 pair.2 = some messages →
    ∃ r ∈ t.loads, r.pair = pair ∧ r.messages = messages
  kept : ∀ r ∈ t.loads, t.snapshots.messages? r.pair.1 r.pair.2 = some r.messages ∨ t.Inserting r
  fits : ∀ (thread : Nat) (c : Call), t.calls[thread]? = some c → t.Fits c.pair c.phase

namespace Recorded

theorem ofSnapshots (state : σ) : (ofSnapshots .empty state).Recorded where
  once := List.nodup_nil
  loaded pair messages h := by cases h
  kept r h := absurd h List.not_mem_nil
  fits thread c h := by cases h

theorem begin (h : t.Recorded) (domain locale : String) : (t.begin domain locale).Recorded where
  once := h.once
  loaded := h.loaded
  kept r hr := by
    refine (h.kept r hr).imp_right ?_
    rintro ⟨thread, c, hcall, hrest⟩
    exact ⟨thread, c, getElem?_begin_of_some hcall domain locale, hrest⟩
  fits thread c hcall := by
    rcases getElem?_begin_cases hcall with hold | hstart
    · exact h.fits thread c hold
    · rw [hstart]
      trivial

theorem fits_of_phase {phase : Call.Phase} (h : t.Recorded) (hcall : t.calls[thread]? = some c)
    (hphase : c.phase = phase) : t.Fits c.pair phase := by
  rw [← hphase]
  exact h.fits thread c hcall

theorem fits_set {phase : Call.Phase} (h : t.Recorded) (hcall : t.calls[thread]? = some c)
    (hcalls : t'.calls = t.calls.set thread { c with phase }) (hself : t'.Fits c.pair phase)
    (hothers : ∀ other d, other ≠ thread → t.calls[other]? = some d →
      t.Fits d.pair d.phase → t'.Fits d.pair d.phase) :
    ∀ (other : Nat) (d : Call), t'.calls[other]? = some d → t'.Fits d.pair d.phase := by
  intro other d hother
  rw [hcalls, getElem?_set_call hcall] at hother
  split at hother
  · obtain rfl := Option.some.inj hother
    exact hself
  · rename_i hne
    exact hothers other d hne hother (h.fits other d hother)

theorem of_quiet {phase : Call.Phase} (h : t.Recorded) (hcall : t.calls[thread]? = some c)
    (hcalls : t'.calls = t.calls.set thread { c with phase }) (hloads : t'.loads = t.loads)
    (hsnapshots : t'.snapshots = t.snapshots) (hphase : ∀ messages, c.phase ≠ .inserting messages)
    (hfits : t.Fits c.pair phase) : t'.Recorded := by
  have hlater : ∀ pair phase, t.Fits pair phase → t'.Fits pair phase := by
    intro pair phase hold
    apply hold.later
    · exact fun r hr => hloads ▸ hr
    · exact fun _ => hloads
    · rw [hsnapshots]
      exact fun _ => id
  constructor
  · rw [hloads]
    exact h.once
  · rw [hloads, hsnapshots]
    exact h.loaded
  · rw [hloads, hsnapshots]
    intro r hr
    exact (h.kept r hr).imp_right fun hr => hr.of_set hcall hcalls fun _ => hphase _
  · exact h.fits_set hcall hcalls (hlater _ _ hfits) fun _ _ _ _ => hlater _ _

/-- What is not there when the holder of the lock looks has not been loaded. -/
theorem not_loaded (h : t.Recorded) (hlock : t.LockHeld) (hcall : t.calls[thread]? = some c)
    (hphase : c.phase = .checking) (hnone : t.snapshots.messages? c.domain c.locale = none) :
    ∀ r ∈ t.loads, r.pair ≠ c.pair := by
  intro r hr hpair
  rcases h.kept r hr with hkept | ⟨other, d, hother, -, hinserting⟩
  · rw [hpair] at hkept
    cases hnone.symm.trans hkept
  · have heq : other = thread :=
      hlock.unique hcall hother (by rw [hphase]; rfl) (by rw [hinserting]; rfl)
    rw [heq, hcall] at hother
    obtain rfl := Option.some.inj hother
    cases hphase.symm.trans hinserting

theorem load (h : t.Recorded) (hlock : t.LockHeld) (hcall : t.calls[thread]? = some c)
    (hphase : c.phase = .loading) {r : LoadRecord} (hpair : r.pair = c.pair)
    (hcalls : t'.calls = t.calls.set thread { c with phase := .inserting r.messages })
    (hloads : t'.loads = t.loads ++ [r]) (hsnapshots : t'.snapshots = t.snapshots) :
    t'.Recorded := by
  have hnew : ∀ old ∈ t.loads, old.pair ≠ c.pair := h.fits_of_phase hcall hphase
  have hold : t.loads ⊆ t'.loads := by
    rw [hloads]
    exact List.subset_append_left _ _
  have hr : r ∈ t'.loads := by
    rw [hloads]
    exact List.mem_append_right _ (List.mem_singleton_self r)
  constructor
  · rw [hloads, List.map_append, List.map_singleton]
    refine List.nodup_append.mpr ⟨h.once, List.nodup_singleton _, ?_⟩
    rintro _ hmem _ hlast rfl
    obtain ⟨old, hmem, heq⟩ := List.mem_map.mp hmem
    exact hnew old hmem (heq.trans ((List.mem_singleton.mp hlast).trans hpair))
  · intro pair messages hfound
    rw [hsnapshots] at hfound
    obtain ⟨old, hmem, hrest⟩ := h.loaded pair messages hfound
    exact ⟨old, hold hmem, hrest⟩
  · intro old hmem
    rw [hloads] at hmem
    rcases List.mem_append.mp hmem with hmem | hmem
    · rw [hsnapshots]
      refine (h.kept old hmem).imp_right fun hinserting => hinserting.of_set hcall hcalls ?_
      rw [hphase]
      nofun
    · obtain rfl := List.mem_singleton.mp hmem
      have hself : t'.calls[thread]? = some { c with phase := .inserting old.messages } := by
        rw [hcalls, getElem?_set_call hcall, if_pos rfl]
      exact Or.inr ⟨thread, _, hself, hpair.symm, rfl⟩
  · apply h.fits_set hcall hcalls
    · exact ⟨r, hr, hpair, rfl⟩
    · intro other d hne hother hfits
      apply hfits.later hold
      · -- Another call cannot be loading, for it would have the lock too.
        intro hd
        exact absurd (hlock.unique hcall hother (by rw [hphase]; rfl) (by rw [hd]; rfl)) hne
      · rw [hsnapshots]
        exact fun _ => id

theorem eq_of_pair_eq (h : t.Recorded) {r old : LoadRecord} (hr : r ∈ t.loads)
    (hold : old ∈ t.loads) (hpair : r.pair = old.pair) : r = old :=
  List.inj_on_of_nodup_map h.once hr hold hpair

theorem messages?_inserted (h : t.Recorded) (hcall : t.calls[thread]? = some c)
    {messages : Messages} (hphase : c.phase = .inserting messages) {pair : String × String}
    {found : Messages} (hfound : t.snapshots.messages? pair.1 pair.2 = some found) :
    (t.snapshots.insert c.domain c.locale messages).messages? pair.1 pair.2 = some found := by
  rw [messages?_insert_call]
  by_cases heq : pair = c.pair
  · obtain ⟨r, hr, hpair, rfl⟩ := h.fits_of_phase hcall hphase
    obtain ⟨old, hold, hpair', rfl⟩ := h.loaded pair found hfound
    rw [if_pos heq, h.eq_of_pair_eq hr hold (hpair.trans (heq.symm.trans hpair'.symm))]
  · rw [if_neg heq, hfound]

theorem insert (h : t.Recorded) (hcall : t.calls[thread]? = some c) {messages : Messages}
    (hphase : c.phase = .inserting messages)
    (hcalls : t'.calls = t.calls.set thread { c with phase := .releasing messages })
    (hloads : t'.loads = t.loads)
    (hsnapshots : t'.snapshots = t.snapshots.insert c.domain c.locale messages) :
    t'.Recorded := by
  obtain ⟨r, hr, hpair, rfl⟩ := h.fits_of_phase hcall hphase
  constructor
  · rw [hloads]
    exact h.once
  · intro pair found hfound
    rw [hloads]
    rw [hsnapshots, messages?_insert_call] at hfound
    split at hfound
    · rename_i heq
      exact ⟨r, hr, hpair.trans heq.symm, Option.some.inj hfound⟩
    · exact h.loaded pair found hfound
  · intro old hmem
    rw [hloads] at hmem
    rw [hsnapshots, messages?_insert_call]
    by_cases heq : old.pair = c.pair
    · left
      rw [if_pos heq, h.eq_of_pair_eq hr hmem (hpair.trans heq.symm)]
    · rw [if_neg heq]
      exact (h.kept old hmem).imp_right fun hinserting =>
        hinserting.of_set hcall hcalls fun hself => absurd hself.symm heq
  · apply h.fits_set hcall hcalls
    · show t'.snapshots.messages? c.domain c.locale = some r.messages
      rw [hsnapshots]
      exact (messages?_insert_call t.snapshots c c.pair r.messages).trans (if_pos rfl)
    · intro other d _ _ hfits
      apply hfits.later
      · exact fun r hr => hloads ▸ hr
      · exact fun _ => hloads
      · rw [hsnapshots]
        exact fun _ => h.messages?_inserted hcall hphase

theorem callStep (h : t.Recorded) (hlock : t.LockHeld) (hcall : t.calls[thread]? = some c)
    (hstep : CallStep loader t thread c t') : t'.Recorded := by
  cases hstep with
  | found hphase hfound => exact h.of_quiet hcall rfl rfl rfl (by rw [hphase]; nofun) hfound
  | missed hphase => exact h.of_quiet hcall rfl rfl rfl (by rw [hphase]; nofun) trivial
  | locked hphase => exact h.of_quiet hcall rfl rfl rfl (by rw [hphase]; nofun) trivial
  | blocked => exact h
  | foundAgain hphase hfound => exact h.of_quiet hcall rfl rfl rfl (by rw [hphase]; nofun) hfound
  | missedAgain hphase hnone =>
      exact h.of_quiet hcall rfl rfl rfl (by rw [hphase]; nofun)
        (h.not_loaded hlock hcall hphase hnone)
  | @loaded result state hphase hload =>
      have hpair : (LoadRecord.mk c.domain c.locale result).pair = c.pair := rfl
      refine h.load hlock hcall hphase hpair ?_ rfl rfl
      rw [← LoadRecord.ofLoad_result]
      rfl
  | inserted hphase => exact h.insert hcall hphase rfl rfl rfl
  | released hphase =>
      have hfits := h.fits_of_phase hcall hphase
      exact h.of_quiet hcall rfl rfl rfl (by rw [hphase]; nofun) hfits
  | ended => exact h

theorem apply (h : t.Recorded) (hlock : t.LockHeld) (loader : Loader σ) (event : Event) :
    (t.apply loader event).Recorded :=
  apply_keeps h h.begin (fun _ _ _ hcall hstep => h.callStep hlock hcall hstep) event

theorem run (h : t.Recorded) (hlock : t.LockHeld) (loader : Loader σ) (events : List Event) :
    (t.run loader events).Recorded := by
  induction events generalizing t with
  | nil => exact h
  | cons event events ih => exact ih (h.apply hlock loader event) (hlock.apply loader event)

theorem messages?_apply (h : t.Recorded) {pair : String × String} {found : Messages}
    (hfound : t.snapshots.messages? pair.1 pair.2 = some found) (loader : Loader σ)
    (event : Event) :
    (t.apply loader event).snapshots.messages? pair.1 pair.2 = some found := by
  rcases snapshots_apply loader t event with
    ⟨hsame, -⟩ | ⟨thread, c, messages, rfl, hcall, hphase, hinsert⟩
  · rw [hsame]
    exact hfound
  · rw [hinsert]
    exact h.messages?_inserted hcall hphase hfound

/-- What is loaded stays as it is, whatever the loader would give later. -/
theorem messages?_run (h : t.Recorded) (hlock : t.LockHeld) {pair : String × String}
    {found : Messages} (hfound : t.snapshots.messages? pair.1 pair.2 = some found)
    (loader : Loader σ) (events : List Event) :
    (t.run loader events).snapshots.messages? pair.1 pair.2 = some found := by
  induction events generalizing t with
  | nil => exact hfound
  | cons event events ih =>
      exact ih (h.apply hlock loader event) (hlock.apply loader event)
        (h.messages?_apply hfound loader event)

theorem exists_load_of_answer (h : t.Recorded) (hcall : c ∈ t.calls) {messages : Messages}
    (hanswer : c.answer? = some messages) :
    ∃ r ∈ t.loads, r.pair = c.pair ∧ r.messages = messages := by
  obtain ⟨thread, hget⟩ := List.mem_iff_getElem?.mp hcall
  unfold Call.answer? at hanswer
  split at hanswer
  · rename_i found hphase
    obtain rfl := Option.some.inj hanswer
    exact h.loaded c.pair found (h.fits_of_phase hget hphase)
  · cases hanswer

end Recorded

/-- For any calls and any order of their steps: no pair is loaded twice, and the loads are all the
calls of the loader there are; every answer is that of the one load of its pair; a pair is loaded
exactly when it has been inserted, and then stays as it is; and every call can come to an end. -/
theorem run_single_flight (loader : Loader σ) (state : σ) (events : List Event) :
    let start := Threads.ofSnapshots .empty state
    let t := start.run loader events
    t.calls.map Call.pair = events.filterMap Event.pair? ∧
    (t.loads.map LoadRecord.pair).Nodup ∧
    loader.loadAll (t.loads.map LoadRecord.pair) state =
      (t.loads.map LoadRecord.result, t.state) ∧
    (∀ c ∈ t.calls, ∀ messages, c.answer? = some messages →
      ∃ r ∈ t.loads, r.pair = c.pair ∧ messages = .ofCatalog r.catalog) ∧
    (∀ pair : String × String, t.snapshots.isLoaded pair.1 pair.2 = true ↔
      ∃ before event after, events = before ++ event :: after ∧
        (start.run loader before).Inserts pair event) ∧
    (∀ (pair : String × String) messages more,
      t.snapshots.messages? pair.1 pair.2 = some messages →
        (t.run loader more).snapshots.messages? pair.1 pair.2 = some messages) ∧
    ∀ thread < t.calls.length, ∃ more c, (t.run loader more).calls[thread]? = some c ∧
      c.answer?.isSome = true ∧ more.filterMap Event.pair? = [] := by
  intro start t
  have hstart : start.LockHeld := lockHeld_ofSnapshots .empty state
  have hlock : t.LockHeld := hstart.run loader events
  have hrecorded : t.Recorded := (Recorded.ofSnapshots state).run hstart loader events
  have hlogs : t.Logs loader state := by
    have hfirst : start.Logs loader state := rfl
    exact run_keeps hfirst (fun _ event h => h.apply event) events
  refine ⟨pairs_run loader start events, hrecorded.once, hlogs, ?_, ?_, ?_, ?_⟩
  · intro c hcall messages hanswer
    obtain ⟨r, hr, hpair, hmessages⟩ := hrecorded.exists_load_of_answer hcall hanswer
    exact ⟨r, hr, hpair, hmessages.symm⟩
  · intro pair
    rw [isLoaded_run]
    exact or_iff_right Bool.false_ne_true
  · intro pair messages more hfound
    exact hrecorded.messages?_run hlock hfound loader more
  · intro thread hthread
    exact hlock.exists_answer loader hthread

def failingOnce (c : Catalog) : Loader Nat := fun domain locale count =>
  (if count = 0 then .error (.json (domain ++ "/" ++ locale)) else .ok c, count + 1)

/-- Two calls of a pair. The second one finds the lock taken twice before it gets it. -/
def overlapping (domain locale : String) : List Event :=
  [.begin domain locale, .begin domain locale] ++
    [0, 1, 0, 1, 0, 0, 1, 0, 0, 1, 1, 1].map .step

/-- Both calls get the empty messages of the one load, which failed, though another one would
not have. -/
theorem run_overlapping_failingOnce :
    let loader := failingOnce (.ofList [("hello", .text "Hello")])
    let t := (Threads.ofSnapshots .empty 0).run loader (overlapping "app" "en")
    t.calls.length = 2 ∧
    (∀ c ∈ t.calls, ∃ messages, c.answer? = some messages ∧ messages.isEmpty = true ∧
      ∃ r ∈ t.loads, r.pair = c.pair ∧ messages = .ofCatalog r.catalog) ∧
    (∃ messages, t.snapshots.messages? "app" "en" = some messages ∧
      (t.run loader [.begin "app" "en", .step 2]).snapshots.messages? "app" "en" =
        some messages) ∧
    ∃ more c, (t.run loader more).calls[1]? = some c ∧ c.answer?.isSome = true ∧
      more.filterMap Event.pair? = [] := by
  intro loader t
  have hlength : t.calls.length = 2 := by decide +kernel
  have hempty : (t.calls.all fun c => c.answer?.any Messages.isEmpty) = true := by decide +kernel
  have hloaded : t.snapshots.isLoaded "app" "en" = true := by decide +kernel
  obtain ⟨-, -, -, hanswers, -, hkept, hends⟩ :=
    run_single_flight loader 0 (overlapping "app" "en")
  have hsecond : 1 < t.calls.length := hlength ▸ Nat.one_lt_two
  refine ⟨hlength, fun c hcall => ?_, ?_, hends 1 hsecond⟩
  · obtain ⟨messages, hanswer, hnone⟩ :=
      (Option.any_eq_true ..).mp (List.all_eq_true.mp hempty c hcall)
    exact ⟨messages, hanswer, hnone, hanswers c hcall messages hanswer⟩
  · obtain ⟨messages, hfound⟩ := Option.isSome_iff_exists.mp hloaded
    exact ⟨messages, hfound, hkept ("app", "en") messages _ hfound⟩

end Threads

end Phrasebook
