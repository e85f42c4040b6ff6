import Phrasebook.Snapshots.Threads

/-!
# Steps of threads

What one step of a call can do. The lock is held exactly by the call that has taken it and not yet
given it back, so that call can go on, and once it has ended every other one can.
-/

namespace Phrasebook

def Call.pair (c : Call) : String × String := (c.domain, c.locale)

namespace Call.Phase

def holdsLock : Phase → Bool
  | .checking | .loading | .inserting _ | .releasing _ => true
  | .start | .waiting | .done _ => false

def stepsLeft : Phase → Nat
  | .start => 6
  | .waiting => 5
  | .checking => 4
  | .loading => 3
  | .inserting _ => 2
  | .releasing _ => 1
  | .done _ => 0

end Call.Phase

namespace Threads

variable {σ : Type}

/-- What a step of a call can do, by where the call stands. -/
inductive CallStep (loader : Loader σ) (t : Threads σ) (thread : Nat) (c : Call) :
    Threads σ → Prop where
  | found {messages : Messages} : c.phase = .start →
      t.snapshots.messages? c.domain c.locale = some messages →
      CallStep loader t thread c (t.move thread c (.done messages))
  | missed : c.phase = .start → t.snapshots.messages? c.domain c.locale = none →
      CallStep loader t thread c (t.move thread c .waiting)
  | locked : c.phase = .waiting → t.holder = none →
      CallStep loader t thread c ({ t with holder := some thread }.move thread c .checking)
  | blocked : c.phase = .waiting → t.holder ≠ none → CallStep loader t thread c t
  | foundAgain {messages : Messages} : c.phase = .checking →
      t.snapshots.messages? c.domain c.locale = some messages →
      CallStep loader t thread c (t.move thread c (.releasing messages))
  | missedAgain : c.phase = .checking → t.snapshots.messages? c.domain c.locale = none →
      CallStep loader t thread c (t.move thread c .loading)
  | loaded {result : Except LoadError Catalog} {state : σ} : c.phase = .loading →
      loader c.domain c.locale t.state = (result, state) →
      CallStep loader t thread c
        ({ t with
            state
            loads := t.loads ++ [LoadRecord.mk c.domain c.locale result] }.move thread c
          (.inserting (Snapshots.ofLoad result)))
  | inserted {messages : Messages} : c.phase = .inserting messages →
      CallStep loader t thread c
        ({ t with snapshots := t.snapshots.insert c.domain c.locale messages }.move thread c
          (.releasing messages))
  | released {messages : Messages} : c.phase = .releasing messages →
      CallStep loader t thread c ({ t with holder := none }.move thread c (.done messages))
  | ended {messages : Messages} : c.phase = .done messages → CallStep loader t thread c t

variable {loader : Loader σ} {t t' : Threads σ} {thread : Nat} {c : Call}

theorem callStep_stepCall (loader : Loader σ) (t : Threads σ) (thread : Nat) (c : Call) :
    CallStep loader t thread c (t.stepCall loader thread c) := by
  cases hphase : c.phase with
  | start =>
      cases hfound : t.snapshots.messages? c.domain c.locale with
      | some messages =>
          simp only [stepCall, hphase, hfound]
          exact .found hphase hfound
      | none =>
          simp only [stepCall, hphase, hfound]
          exact .missed hphase hfound
  | waiting =>
      cases hholder : t.holder with
      | some other =>
          simp only [stepCall, hphase, hholder]
          exact .blocked hphase (by simp [hholder])
      | none =>
          simp only [stepCall, hphase, hholder]
          exact .locked hphase hholder
  | checking =>
      cases hfound : t.snapshots.messages? c.domain c.locale with
      | some messages =>
          simp only [stepCall, hphase, hfound]
          exact .foundAgain hphase hfound
      | none =>
          simp only [stepCall, hphase, hfound]
          exact .missedAgain hphase hfound
  | loading =>
      cases hload : loader c.domain c.locale t.state with
      | mk result state =>
          simp only [stepCall, hphase, hload]
          exact .loaded hphase hload
  | inserting messages =>
      simp only [stepCall, hphase]
      exact .inserted hphase
  | releasing messages =>
      simp only [stepCall, hphase]
      exact .released hphase
  | done messages =>
      simp only [stepCall, hphase]
      exact .ended hphase

theorem apply_step (loader : Loader σ) (hcall : t.calls[thread]? = some c) :
    t.apply loader (.step thread) = t.stepCall loader thread c := by
  simp only [apply, hcall]

theorem apply_step_none (loader : Loader σ) (hcall : t.calls[thread]? = none) :
    t.apply loader (.step thread) = t := by
  simp only [apply, hcall]

/-- What holds, and is kept when a call begins and when one goes on, is kept by every event. -/
theorem apply_keeps {Holds : Threads σ → Prop} (h : Holds t)
    (hbegin : ∀ domain locale, Holds (t.begin domain locale))
    (hstep : ∀ thread c t', t.calls[thread]? = some c → CallStep loader t thread c t' → Holds t')
    (event : Event) : Holds (t.apply loader event) := by
  cases event with
  | begin domain locale => exact hbegin domain locale
  | step thread =>
      cases hcall : t.calls[thread]? with
      | none =>
          rw [apply_step_none loader hcall]
          exact h
      | some c =>
          rw [apply_step loader hcall]
          exact hstep thread c _ hcall (callStep_stepCall loader t thread c)

theorem run_cons (loader : Loader σ) (t : Threads σ) (event : Event) (events : List Event) :
    t.run loader (event :: events) = (t.apply loader event).run loader events := rfl

theorem run_append (loader : Loader σ) (t : Threads σ) (events more : List Event) :
    t.run loader (events ++ more) = (t.run loader events).run loader more :=
  List.foldl_append

theorem run_keeps {Holds : Threads σ → Prop} (h : Holds t)
    (happly : ∀ t event, Holds t → Holds (apply loader t event)) (events : List Event) :
    Holds (t.run loader events) := by
  induction events generalizing t with
  | nil => exact h
  | cons event events ih => exact ih (happly t event h)

/-! ## Calls -/

theorem getElem?_set_call (hcall : t.calls[thread]? = some c) (phase : Call.Phase) (other : Nat) :
    (t.calls.set thread { c with phase })[other]? =
      if other = thread then some { c with phase } else t.calls[other]? := by
  have hlt : thread < t.calls.length := (List.getElem?_eq_some_iff.mp hcall).1
  rw [List.getElem?_set]
  by_cases heq : other = thread
  · rw [if_pos heq.symm, if_pos hlt, if_pos heq]
  · rw [if_neg (Ne.symm heq), if_neg heq]

theorem pairs_set_call (hcall : t.calls[thread]? = some c) (phase : Call.Phase) :
    (t.calls.set thread { c with phase }).map Call.pair = t.calls.map Call.pair := by
  apply List.ext_getElem?
  intro other
  rw [List.getElem?_map, List.getElem?_map, getElem?_set_call hcall]
  by_cases heq : other = thread
  · rw [if_pos heq, heq, hcall]
    rfl
  · rw [if_neg heq]

theorem getElem?_begin_cases {domain locale : String}
    (h : (t.begin domain locale).calls[thread]? = some c) :
    t.calls[thread]? = some c ∨ c.phase = .start := by
  unfold begin at h
  rw [List.getElem?_append] at h
  split at h
  · exact Or.inl h
  · right
    rw [List.mem_singleton.mp (List.mem_of_getElem? h)]

theorem getElem?_begin_of_some (hcall : t.calls[thread]? = some c) (domain locale : String) :
    (t.begin domain locale).calls[thread]? = some c := by
  unfold begin
  rw [List.getElem?_append_left (List.getElem?_eq_some_iff.mp hcall).1]
  exact hcall

def Event.pair? : Event → Option (String × String)
  | .begin domain locale => some (domain, locale)
  | .step _ => none

theorem CallStep.pairs (hstep : CallStep loader t thread c t')
    (hcall : t.calls[thread]? = some c) : t'.calls.map Call.pair = t.calls.map Call.pair := by
  cases hstep with
  | blocked => rfl
  | ended => rfl
  | _ => exact pairs_set_call hcall _

theorem pairs_apply (loader : Loader σ) (t : Threads σ) (event : Event) :
    (t.apply loader event).calls.map Call.pair = t.calls.map Call.pair ++ event.pair?.toList := by
  cases event with
  | begin domain locale => exact List.map_append
  | step thread =>
      simp only [Event.pair?, Option.toList_none, List.append_nil]
      cases hcall : t.calls[thread]? with
      | none => rw [apply_step_none loader hcall]
      | some c =>
          rw [apply_step loader hcall]
          exact (callStep_stepCall loader t thread c).pairs hcall

theorem pairs_run (loader : Loader σ) (t : Threads σ) (events : List Event) :
    (t.run loader events).calls.map Call.pair =
      t.calls.map Call.pair ++ events.filterMap Event.pair? := by
  induction events generalizing t with
  | nil => simp [run]
  | cons event events ih =>
      rw [run_cons, ih, pairs_apply, List.append_assoc, List.filterMap_cons]
      cases event.pair? <;> rfl

/-! ## The lock -/

/-- The holder is the call that has taken the lock and not given it back. -/
def LockHeld (t : Threads σ) : Prop :=
  ∀ thread, t.holder = some thread ↔ ∃ c, t.calls[thread]? = some c ∧ c.phase.holdsLock = true

namespace LockHeld

theorem holder_iff (h : t.LockHeld) (hcall : t.calls[thread]? = some c) :
    t.holder = some thread ↔ c.phase.holdsLock = true := by
  rw [h thread, hcall]
  simp

theorem unique (h : t.LockHeld) {other : Nat} {d : Call} (hcall : t.calls[thread]? = some c)
    (hother : t.calls[other]? = some d) (hc : c.phase.holdsLock = true)
    (hd : d.phase.holdsLock = true) : other = thread := by
  have hthread := (h.holder_iff hcall).mpr hc
  rw [(h.holder_iff hother).mpr hd] at hthread
  exact Option.some.inj hthread

theorem begin (h : t.LockHeld) (domain locale : String) : (t.begin domain locale).LockHeld := by
  intro thread
  refine (h thread).trans ⟨?_, ?_⟩
  · rintro ⟨c, hcall, hc⟩
    exact ⟨c, getElem?_begin_of_some hcall domain locale, hc⟩
  · rintro ⟨c, hcall, hc⟩
    rcases getElem?_begin_cases hcall with hold | hstart
    · exact ⟨c, hold, hc⟩
    · rw [hstart] at hc
      cases hc

theorem of_set {phase : Call.Phase} (h : t.LockHeld) (hcall : t.calls[thread]? = some c)
    (hcalls : t'.calls = t.calls.set thread { c with phase })
    (hself : t'.holder = some thread ↔ phase.holdsLock = true)
    (hothers : ∀ other, other ≠ thread → (t'.holder = some other ↔ t.holder = some other)) :
    t'.LockHeld := by
  intro other
  rw [hcalls, getElem?_set_call hcall]
  by_cases heq : other = thread
  · rw [heq, hself, if_pos rfl]
    simp
  · rw [hothers other heq, h other, if_neg heq]

theorem of_set_same {phase : Call.Phase} (h : t.LockHeld) (hcall : t.calls[thread]? = some c)
    (hcalls : t'.calls = t.calls.set thread { c with phase }) (hholder : t'.holder = t.holder)
    (hphase : phase.holdsLock = c.phase.holdsLock) : t'.LockHeld := by
  apply h.of_set hcall hcalls
  · rw [hholder, h.holder_iff hcall, hphase]
  · intro other _
    rw [hholder]

theorem callStep (h : t.LockHeld) (hcall : t.calls[thread]? = some c)
    (hstep : CallStep loader t thread c t') : t'.LockHeld := by
  cases hstep with
  | found hphase => exact h.of_set_same hcall rfl rfl (by rw [hphase]; rfl)
  | missed hphase => exact h.of_set_same hcall rfl rfl (by rw [hphase]; rfl)
  | locked hphase hfree =>
      apply h.of_set hcall rfl
      · simp [move, Call.Phase.holdsLock]
      · intro other hne
        simp [move, hfree, Ne.symm hne]
  | blocked => exact h
  | foundAgain hphase => exact h.of_set_same hcall rfl rfl (by rw [hphase]; rfl)
  | missedAgain hphase => exact h.of_set_same hcall rfl rfl (by rw [hphase]; rfl)
  | loaded hphase => exact h.of_set_same hcall rfl rfl (by rw [hphase]; rfl)
  | inserted hphase => exact h.of_set_same hcall rfl rfl (by rw [hphase]; rfl)
  | released hphase =>
      have hholder : t.holder = some thread := by
        rw [h.holder_iff hcall, hphase]
        rfl
      apply h.of_set hcall rfl
      · simp [move, Call.Phase.holdsLock]
      · intro other hne
        simp [move, hholder, Ne.symm hne]
  | ended => exact h

theorem apply (h : t.LockHeld) (loader : Loader σ) (event : Event) :
    (t.apply loader event).LockHeld :=
  apply_keeps h h.begin (fun _ _ _ hcall hstep => h.callStep hcall hstep) event

theorem run (h : t.LockHeld) (loader : Loader σ) (events : List Event) :
    (t.run loader events).LockHeld :=
  run_keeps h (fun _ event ht => ht.apply loader event) events

end LockHeld

theorem lockHeld_ofSnapshots (s : Snapshots) (state : σ) : (ofSnapshots s state).LockHeld := by
  intro thread
  simp [ofSnapshots]

/-! ## Calls come to an end -/

/-- A call that does not have to wait for another one comes nearer to its answer. -/
theorem CallStep.stepsLeft_lt (hstep : CallStep loader t thread c t') (h : t.LockHeld)
    (hcall : t.calls[thread]? = some c) (hfree : t.holder = none ∨ t.holder = some thread)
    (hanswer : c.answer? = none) :
    ∃ c', t'.calls[thread]? = some c' ∧ c'.phase.stepsLeft < c.phase.stepsLeft ∧
      (t'.holder = none ∨ t'.holder = some thread) := by
  have hmoved := fun phase => (getElem?_set_call hcall phase thread).trans (if_pos rfl)
  cases hstep with
  | found hphase => exact ⟨_, hmoved _, by simp [hphase, Call.Phase.stepsLeft], hfree⟩
  | missed hphase => exact ⟨_, hmoved _, by simp [hphase, Call.Phase.stepsLeft], hfree⟩
  | locked hphase => exact ⟨_, hmoved _, by simp [hphase, Call.Phase.stepsLeft], Or.inr rfl⟩
  | blocked hphase hheld =>
      have hself := hfree.resolve_left hheld
      rw [h.holder_iff hcall, hphase] at hself
      cases hself
  | foundAgain hphase => exact ⟨_, hmoved _, by simp [hphase, Call.Phase.stepsLeft], hfree⟩
  | missedAgain hphase => exact ⟨_, hmoved _, by simp [hphase, Call.Phase.stepsLeft], hfree⟩
  | loaded hphase => exact ⟨_, hmoved _, by simp [hphase, Call.Phase.stepsLeft], hfree⟩
  | inserted hphase => exact ⟨_, hmoved _, by simp [hphase, Call.Phase.stepsLeft], hfree⟩
  | released hphase => exact ⟨_, hmoved _, by simp [hphase, Call.Phase.stepsLeft], Or.inl rfl⟩
  | ended hphase => simp [Call.answer?, hphase] at hanswer

theorem LockHeld.exists_answer_of_free (h : t.LockHeld) (loader : Loader σ)
    (hcall : t.calls[thread]? = some c)
    (hfree : t.holder = none ∨ t.holder = some thread) :
    ∃ more c', (t.run loader more).calls[thread]? = some c' ∧ c'.answer?.isSome = true ∧
      (t.run loader more).holder = none ∧ more.filterMap Event.pair? = [] := by
  induction hleft : c.phase.stepsLeft using Nat.strongRecOn generalizing t c with
  | ind left ih =>
      cases hanswer : c.answer? with
      | some messages =>
          refine ⟨[], c, hcall, by rw [hanswer]; rfl, hfree.resolve_right fun hself => ?_, rfl⟩
          rw [h.holder_iff hcall] at hself
          cases hphase : c.phase <;> simp_all [Call.answer?, Call.Phase.holdsLock]
      | none =>
          have hstep := callStep_stepCall loader t thread c
          obtain ⟨next, hnext, hlt, hfree'⟩ := hstep.stepsLeft_lt h hcall hfree hanswer
          obtain ⟨more, c', hlast, hrest⟩ :=
            ih _ (hleft ▸ hlt) (h.callStep hcall hstep) hnext hfree' rfl
          refine ⟨.step thread :: more, c', ?_⟩
          rw [run_cons, apply_step loader hcall]
          exact ⟨hlast, hrest⟩

theorem LockHeld.exists_answer (h : t.LockHeld) (loader : Loader σ)
    (hthread : thread < t.calls.length) :
    ∃ more c, (t.run loader more).calls[thread]? = some c ∧ c.answer?.isSome = true ∧
      more.filterMap Event.pair? = [] := by
  cases hholder : t.holder with
  | none =>
      obtain ⟨more, c, hcall, hanswer, -, hsteps⟩ :=
        h.exists_answer_of_free loader (List.getElem?_eq_getElem hthread) (Or.inl hholder)
      exact ⟨more, c, hcall, hanswer, hsteps⟩
  | some other =>
      obtain ⟨d, hother, -⟩ := (h other).mp hholder
      obtain ⟨more, -, -, -, hfree, hmore⟩ := h.exists_answer_of_free loader hother (Or.inr hholder)
      have hlength : (t.run loader more).calls.length = t.calls.length := by
        have hpairs := congrArg List.length (pairs_run loader t more)
        rw [hmore] at hpairs
        simpa using hpairs
      have hlater := List.getElem?_eq_getElem (hlength ▸ hthread)
      obtain ⟨rest, c, hcall, hanswer, -, hrest⟩ :=
        (h.run loader more).exists_answer_of_free loader hlater (Or.inl hfree)
      refine ⟨more ++ rest, c, ?_, hanswer, ?_⟩
      · rw [run_append]
        exact hcall
      · rw [List.filterMap_append, hmore, hrest]
        rfl

end Threads

end Phrasebook
