import Phrasebook.Proofs.CachedLoads

/-!
# Runs of a bounded cache

A cache is read and written in any order, with entries that expire at once or never. After any run
each entry is the one written last under its key.
-/

namespace Phrasebook.Cache

inductive Operation where
  | get (key : String)
  | set (key : String) (catalog : Catalog) (timeToLive : Option Nat)

namespace Operation

def key : Operation → String
  | get key => key
  | set key _ _ => key

def target? : Operation → Option String
  | get _ => none
  | set key _ _ => some key

theorem key_of_target? {operation : Operation} {written : String}
    (h : operation.target? = some written) : written = operation.key := by
  cases operation with
  | get key => cases h
  | set key catalog timeToLive => exact (Option.some.inj h).symm

def written? (key : String) : Operation → Option Entry
  | get _ => none
  | set other catalog timeToLive => if other = key then some ⟨catalog, timeToLive⟩ else none

def apply (c : Cache) : Operation → Cache
  | get key => (c.get key).2
  | set key catalog timeToLive => c.set key catalog timeToLive

end Operation

def run (c : Cache) (operations : List Operation) : Cache := operations.foldl Operation.apply c

def lastWritten? (operations : List Operation) (key : String) : Option Entry :=
  operations.reverse.findSome? (Operation.written? key)

theorem run_concat (c : Cache) (operations : List Operation) (last : Operation) :
    c.run (operations ++ [last]) = last.apply (c.run operations) := by
  rw [run, List.foldl_append]
  rfl

theorem lastWritten?_append (operations more : List Operation) (key : String) :
    lastWritten? (operations ++ more) key =
      (lastWritten? more key).or (lastWritten? operations key) := by
  rw [lastWritten?, List.reverse_append, List.findSome?_append]
  rfl

theorem lastWritten?_singleton (operation : Operation) (key : String) :
    lastWritten? [operation] key = operation.written? key := by
  simp [lastWritten?]

theorem capacity_apply (c : Cache) (operation : Operation) :
    (operation.apply c).capacity = c.capacity := by
  cases operation with
  | get key =>
      rcases c.get_cases key with ⟨-, hc⟩ | ⟨e, -, -, hc⟩ | ⟨e, -, -, hc⟩ <;>
        simp [Operation.apply, hc]
  | set key catalog timeToLive => rfl

theorem capacity_run (c : Cache) (operations : List Operation) :
    (c.run operations).capacity = c.capacity := by
  induction operations using List.reverseRecOn with
  | nil => rfl
  | append_singleton operations last ih => rw [run_concat, capacity_apply, ih]

/-! ## What is written last -/

def HoldsLast (c : Cache) (operations : List Operation) : Prop :=
  ∀ key e, (key, e) ∈ c.entries → lastWritten? operations key = some e

theorem HoldsLast.apply {c : Cache} {operations : List Operation} (h : c.HoldsLast operations)
    (last : Operation) : (last.apply c).HoldsLast (operations ++ [last]) := by
  intro key e hmem
  rw [lastWritten?_append, lastWritten?_singleton]
  cases last with
  | get other =>
      rw [h key e (mem_entries_of_mem_get hmem)]
      rfl
  | set other catalog timeToLive =>
      rcases mem_entries_put hmem with ⟨rfl, rfl⟩ | ⟨hearlier, hne⟩
      · simp [Operation.written?]
      · rw [h key e hearlier, Operation.written?, if_neg fun heq => hne heq.symm]
        rfl

theorem holdsLast_run (capacity : Nat) (operations : List Operation) :
    ((ofCapacity capacity).run operations).HoldsLast operations := by
  induction operations using List.reverseRecOn with
  | nil =>
      intro key e hmem
      cases hmem
  | append_singleton operations last ih =>
      rw [run_concat]
      exact ih.apply last

end Phrasebook.Cache
