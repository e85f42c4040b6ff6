import Phrasebook.Snapshots

/-!
# Threads that share snapshots

Calls for messages that run at the same time. A call looks without the lock, takes the lock
when it finds nothing, looks again, and only then loads, keeps what it loaded and gives
the lock back. Each of these is one step, and steps of different calls can come in any
order.
-/

namespace Phrasebook

/-- Where a call stands. -/
inductive Call.Phase where
  | start
  | waiting
  /-- It holds the lock and has not looked again. -/
  | checking
  /-- It holds the lock and found nothing. -/
  | loading
  /-- It holds the lock and has loaded messages. -/
  | inserting (messages : Messages)
  /-- It holds the lock and knows its answer. -/
  | releasing (messages : Messages)
  | done (messages : Messages)

/-- A call for the messages of a domain in a locale. -/
structure Call where
  domain : String
  locale : String
  phase : Call.Phase

def Call.answer? (c : Call) : Option Messages :=
  match c.phase with
  | .done messages => some messages
  | _ => none

/-- A load that took place, and what the loader gave. -/
structure LoadRecord where
  domain : String
  locale : String
  result : Except LoadError Catalog

/-- Calls that share snapshots, a lock and a loader's state. -/
structure Threads (σ : Type) where
  snapshots : Snapshots
  holder : Option Nat
  calls : List Call
  loads : List LoadRecord
  state : σ

namespace Threads

variable {σ : Type}

def ofSnapshots (s : Snapshots) (state : σ) : Threads σ := ⟨s, none, [], [], state⟩

def begin (t : Threads σ) (domain locale : String) : Threads σ :=
  { t with calls := t.calls ++ [Call.mk domain locale .start] }

def move (t : Threads σ) (thread : Nat) (c : Call) (phase : Call.Phase) : Threads σ :=
  { t with calls := t.calls.set thread { c with phase } }

/-- The next step of a call. A call that waits for a lock that another one holds, and one that
has its answer, stay where they are. -/
def stepCall (loader : Loader σ) (t : Threads σ) (thread : Nat) (c : Call) : Threads σ :=
  match c.phase with
  | .start =>
    match t.snapshots.messages? c.domain c.locale with
    | some messages => t.move thread c (.done messages)
    | none => t.move thread c .waiting
  | .waiting =>
    if t.holder.isNone then { t with holder := some thread }.move thread c .checking else t
  | .checking =>
    match t.snapshots.messages? c.domain c.locale with
    | some messages => t.move thread c (.releasing messages)
    | none => t.move thread c .loading
  | .loading =>
    let (result, state) := loader c.domain c.locale t.state
    { t with state, loads := t.loads ++ [LoadRecord.mk c.domain c.locale result] }.move thread c
      (.inserting (Snapshots.ofLoad result))
  | .inserting messages =>
    { t with snapshots := t.snapshots.insert c.domain c.locale messages }.move thread c
      (.releasing messages)
  | .releasing messages => { t with holder := none }.move thread c (.done messages)
  | .done _ => t

inductive Event where
  | begin (domain locale : String)
  | step (thread : Nat)

/-- Let something happen. A step of a call that has not begun changes nothing. -/
def apply (loader : Loader σ) (t : Threads σ) : Event → Threads σ
  | .begin domain locale => t.begin domain locale
  | .step thread =>
    match t.calls[thread]? with
    | some c => t.stepCall loader thread c
    | none => t

/-- Let events happen one after the other. -/
def run (loader : Loader σ) (t : Threads σ) (events : List Event) : Threads σ :=
  events.foldl (apply loader) t

/-- Calls that begin together and then step in turn, often enough for all to end: in every turn
the one that holds the lock comes nearer to giving it back. -/
def turns (count : Nat) (domain locale : String) : List Event :=
  List.replicate count (.begin domain locale) ++
    (List.replicate (6 * count + 6) ((List.range count).map .step)).flatten

/-- The answers to a number of calls at the same time, in their order. -/
def together (loader : Loader σ) (count : Nat) (domain locale : String) (s : Snapshots)
    (state : σ) : List Messages × Snapshots × σ :=
  let t := (ofSnapshots s state).run loader (turns count domain locale)
  (t.calls.filterMap Call.answer?, t.snapshots, t.state)

end Threads

end Phrasebook
