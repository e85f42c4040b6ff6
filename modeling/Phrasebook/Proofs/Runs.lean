import Mathlib.Data.List.Induction
import Phrasebook.Translator

/-!
# Runs of a translator

A translator is called again and again, and what it has loaded is kept from call to call. A call
needs the messages of one domain in one locale, and its text depends on nothing but these.
-/

namespace Phrasebook

namespace Snapshots

variable {σ : Type}

def requestAll (loader : Loader σ) : List (String × String) → Snapshots × σ → Snapshots × σ
  | [], state => state
  | pair :: rest, state =>
    requestAll loader rest (messages loader pair.1 pair.2 state.1 state.2).2

theorem requestAll_append (loader : Loader σ) (pairs rest : List (String × String))
    (state : Snapshots × σ) :
    requestAll loader (pairs ++ rest) state =
      requestAll loader rest (requestAll loader pairs state) := by
  induction pairs generalizing state with
  | nil => rfl
  | cons pair pairs ih => exact ih _

theorem requestAll_concat (loader : Loader σ) (pairs : List (String × String))
    (pair : String × String) (state : Snapshots × σ) :
    requestAll loader (pairs ++ [pair]) state =
      (messages loader pair.1 pair.2 (requestAll loader pairs state).1
        (requestAll loader pairs state).2).2 := by
  rw [requestAll_append]
  rfl

theorem messages?_insert (s : Snapshots) (pair other : String × String) (messages : Messages) :
    (s.insert pair.1 pair.2 messages).messages? other.1 other.2 =
      if other = pair then some messages else s.messages? other.1 other.2 := by
  simp only [insert, messages?, List.lookup_cons]
  by_cases h : other = pair
  · simp [h]
  · simp [h, beq_eq_false_iff_ne.mpr h]

theorem messages_of_loaded {loader : Loader σ} {pair : String × String} {s : Snapshots}
    {found : Messages} (state : σ) (h : s.messages? pair.1 pair.2 = some found) :
    messages loader pair.1 pair.2 s state = (found, s, state) := by
  rw [messages, h]

theorem messages_of_not_loaded {loader : Loader σ} {pair : String × String} {s : Snapshots}
    {state state' : σ} {result : Except LoadError Catalog}
    (h : s.messages? pair.1 pair.2 = none)
    (hload : loader pair.1 pair.2 state = (result, state')) :
    messages loader pair.1 pair.2 s state =
      (ofLoad result, s.insert pair.1 pair.2 (ofLoad result), state') := by
  rw [messages, h]
  simp only [hload]

/-- Exactly the requested pairs are loaded, each with the messages given for it. -/
def Keeps (given : String × String → Messages) (requested : List (String × String))
    (s : Snapshots) : Prop :=
  ∀ pair : String × String, s.messages? pair.1 pair.2 =
    if pair ∈ requested then some (given pair) else none

theorem Keeps.empty (given : String × String → Messages) : Keeps given [] .empty :=
  fun _ => rfl

theorem Keeps.request_again {loader : Loader σ} {given : String × String → Messages}
    {requested : List (String × String)} {s : Snapshots} (h : Keeps given requested s)
    {pair : String × String} (state : σ) (hpair : pair ∈ requested) :
    messages loader pair.1 pair.2 s state = (given pair, s, state) := by
  apply messages_of_loaded
  rw [h pair, if_pos hpair]

theorem Keeps.request_first {loader : Loader σ} {given : String × String → Messages}
    {requested : List (String × String)} {s : Snapshots} (h : Keeps given requested s)
    {pair : String × String} {state state' : σ} {result : Except LoadError Catalog}
    (hpair : pair ∉ requested) (hload : loader pair.1 pair.2 state = (result, state')) :
    messages loader pair.1 pair.2 s state =
      (ofLoad result, s.insert pair.1 pair.2 (ofLoad result), state') := by
  apply messages_of_not_loaded _ hload
  rw [h pair, if_neg hpair]

theorem Keeps.concat_of_mem {given : String × String → Messages}
    {requested : List (String × String)} {s : Snapshots} (h : Keeps given requested s)
    {pair : String × String} (hpair : pair ∈ requested) :
    Keeps given (requested ++ [pair]) s := by
  intro other
  rw [h other]
  by_cases heq : other = pair <;> simp_all

theorem Keeps.insert {given : String × String → Messages} {requested : List (String × String)}
    {s : Snapshots} (h : Keeps given requested s) (pair : String × String) :
    Keeps given (requested ++ [pair]) (s.insert pair.1 pair.2 (given pair)) := by
  intro other
  rw [messages?_insert, h other]
  by_cases heq : other = pair <;> simp [heq]

theorem requestAll_induction {loader : Loader σ} {start : Snapshots × σ}
    (Holds : List (String × String) → Snapshots × σ → Prop) (hstart : Holds [] start)
    (pairs : List (String × String))
    (hstep : ∀ before pair after, pairs = before ++ pair :: after → ∀ state, Holds before state →
      Holds (before ++ [pair]) (messages loader pair.1 pair.2 state.1 state.2).2) :
    Holds pairs (requestAll loader pairs start) := by
  induction pairs using List.reverseRecOn with
  | nil => exact hstart
  | append_singleton pairs last ih =>
      rw [requestAll_concat]
      apply hstep pairs last [] rfl
      apply ih
      intro before pair after hsplit
      apply hstep before pair (after ++ [last])
      simp [hsplit]

/-! ### Loaders that never change -/

section Answers

variable {loader : Loader σ} {answer : String × String → Except LoadError Catalog}
  (hanswer : ∀ pair state, (loader pair.1 pair.2 state).1 = answer pair)

include hanswer

theorem Keeps.request {requested : List (String × String)} {s : Snapshots}
    (h : Keeps (fun pair => ofLoad (answer pair)) requested s) (pair : String × String)
    (state : σ) :
    (messages loader pair.1 pair.2 s state).1 = ofLoad (answer pair) ∧
      Keeps (fun pair => ofLoad (answer pair)) (requested ++ [pair])
        (messages loader pair.1 pair.2 s state).2.1 := by
  by_cases hpair : pair ∈ requested
  · rw [h.request_again state hpair]
    exact ⟨rfl, h.concat_of_mem hpair⟩
  · have hload : loader pair.1 pair.2 state = (answer pair, (loader pair.1 pair.2 state).2) := by
      rw [← hanswer pair state]
    rw [h.request_first hpair hload]
    exact ⟨rfl, h.insert pair⟩

/-- Whatever was asked for before, the messages of a pair are those the loader gives for it. -/
theorem messages_requestAll (pairs : List (String × String)) (pair : String × String)
    (start : σ) :
    (messages loader pair.1 pair.2 (requestAll loader pairs (.empty, start)).1
      (requestAll loader pairs (.empty, start)).2).1 = ofLoad (answer pair) := by
  have hkeeps : Keeps (fun pair => ofLoad (answer pair)) pairs
      (requestAll loader pairs (.empty, start)).1 :=
    requestAll_induction (fun requested state => Keeps _ requested state.1) (Keeps.empty _) pairs
      fun _ pair _ _ state h => (h.request hanswer pair state.2).2
  exact (hkeeps.request hanswer pair _).1

end Answers

end Snapshots

namespace Translator

variable {σ : Type}

structure Call where
  id : String
  arguments : Arguments
  locale : Option String

def pair (t : Translator) (call : Call) : String × String :=
  ((domainAndKey call.id).1, t.localeFor call.locale)

def textFrom (t : Translator) (strategy : Strategy) (messages : Messages) (call : Call) : String :=
  let selection := messages.get (domainAndKey call.id).2 (count? call.arguments)
    (t.localeFor call.locale) strategy
  Substitution.substitute (selection.text.getD call.id) (replacements t.wrapper call.arguments)

def answers {τ : Type} (lookup : Lookup τ) (t : Translator) : List Call → τ → List String
  | [], _ => []
  | call :: rest, state =>
    let (text, state) := t.translate lookup call.id call.arguments call.locale state
    text :: answers lookup t rest state

theorem translate_eq_textFrom (t : Translator) (loader : Loader σ) (strategy : Strategy)
    (call : Call) (state : Snapshots × σ) :
    (t.translate (.ofLoader loader strategy) call.id call.arguments call.locale state).1 =
      t.textFrom strategy
        (Snapshots.messages loader (t.pair call).1 (t.pair call).2 state.1 state.2).1 call := rfl

theorem answers_cons (t : Translator) (loader : Loader σ) (strategy : Strategy)
    (call : Call) (rest : List Call) (state : Snapshots × σ) :
    t.answers (.ofLoader loader strategy) (call :: rest) state =
      t.textFrom strategy
          (Snapshots.messages loader (t.pair call).1 (t.pair call).2 state.1 state.2).1 call ::
        t.answers (.ofLoader loader strategy) rest
          (Snapshots.messages loader (t.pair call).1 (t.pair call).2 state.1 state.2).2 := rfl

theorem answers_append (t : Translator) (loader : Loader σ) (strategy : Strategy)
    (calls rest : List Call) (state : Snapshots × σ) :
    t.answers (.ofLoader loader strategy) (calls ++ rest) state =
      t.answers (.ofLoader loader strategy) calls state ++
        t.answers (.ofLoader loader strategy) rest
          (Snapshots.requestAll loader (calls.map t.pair) state) := by
  induction calls generalizing state with
  | nil => rfl
  | cons call calls ih =>
      rw [List.cons_append, answers_cons, answers_cons, ih]
      rfl

theorem length_answers {τ : Type} (lookup : Lookup τ) (t : Translator) (calls : List Call)
    (state : τ) : (t.answers lookup calls state).length = calls.length := by
  induction calls generalizing state with
  | nil => rfl
  | cons call calls ih => simp [answers, ih]

theorem answers_eq_map {loader : Loader σ} {strategy : Strategy} {t : Translator}
    {start : Snapshots × σ} {given : String × String → Messages} (calls : List Call)
    (hgiven : ∀ before pair after, calls.map t.pair = before ++ pair :: after →
      let state := Snapshots.requestAll loader before start
      (Snapshots.messages loader pair.1 pair.2 state.1 state.2).1 = given pair) :
    t.answers (.ofLoader loader strategy) calls start =
      calls.map fun call => t.textFrom strategy (given (t.pair call)) call := by
  induction calls using List.reverseRecOn with
  | nil => rfl
  | append_singleton calls last ih =>
      have hlast := hgiven (calls.map t.pair) (t.pair last) [] (by simp)
      have hcalls := ih fun before pair after hsplit =>
        hgiven before pair (after ++ [t.pair last]) (by simp [hsplit])
      rw [answers_append, hcalls, List.map_append, answers_cons, hlast]
      rfl

end Translator

end Phrasebook
