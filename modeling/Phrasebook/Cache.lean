import Phrasebook.Catalog

/-!
# Catalog caches

A store that keeps catalogs under keys and may fail, and a bounded store in memory
that gives up the entry that has been unused for longest.
-/

namespace Phrasebook

inductive CacheError where
  | backend (message : String)
  deriving DecidableEq

def CacheError.message : CacheError → String
  | .backend message => "cache backend error: " ++ message

/-- Keeps catalogs under keys in some state. Entries can be given a time to live in seconds. -/
structure CacheBackend (σ : Type) where
  get : String → σ → Except CacheError (Option Catalog) × σ
  set : String → Catalog → Option Nat → σ → Except CacheError Unit × σ

/-- A store that can be neither read nor written. -/
def CacheBackend.broken {σ : Type} : CacheBackend σ where
  get _ state := (.error (.backend "unreachable"), state)
  set _ _ _ state := (.error (.backend "read only"), state)

structure Cache.Entry where
  catalog : Catalog
  timeToLive : Option Nat

/-- An entry with no seconds to live is expired as soon as it is written. One with more lives
longer than anything that reads it. -/
def Cache.Entry.isExpired (e : Entry) : Bool := e.timeToLive == some 0

/-- A bounded cache. The entry used last comes first, and there is one entry under each key. -/
@[ext]
structure Cache where
  capacity : Nat
  entries : Entries Cache.Entry
  capacity_pos : 0 < capacity
  length_le : entries.length ≤ capacity
  nodup_keys : entries.keys.Nodup

namespace Cache

def defaultCapacity : Nat := 64

/-- An empty cache; it has room for one entry at least. -/
def ofCapacity (capacity : Nat) : Cache where
  capacity := max 1 capacity
  entries := []
  capacity_pos := by omega
  length_le := Nat.zero_le _
  nodup_keys := Entries.nodup_keys_nil

def length (c : Cache) : Nat := c.entries.length

def isEmpty (c : Cache) : Bool := c.entries.isEmpty

def keys (c : Cache) : List String := c.entries.keys

theorem length_keys_le (c : Cache) : c.keys.length ≤ c.capacity := by
  rw [keys, Entries.keys, List.length_map]
  exact c.length_le

def others (c : Cache) (key : String) : Entries Entry := c.entries.filter fun (k, _) => k ≠ key

theorem keys_others (c : Cache) (key : String) :
    (c.others key).keys = c.keys.filter (· ≠ key) := by
  simp only [others, keys, Entries.keys, List.filter_map]
  rfl

theorem not_mem_keys_others (c : Cache) (key : String) : key ∉ (c.others key).keys := by
  rw [keys_others]
  simp

theorem nodup_keys_others (c : Cache) (key : String) : (c.others key).keys.Nodup := by
  rw [keys_others]
  exact c.nodup_keys.filter _

def remove (c : Cache) (key : String) : Cache where
  capacity := c.capacity
  entries := c.others key
  capacity_pos := c.capacity_pos
  length_le := Nat.le_trans (List.length_filter_le _ _) c.length_le
  nodup_keys := c.nodup_keys_others key

@[simp] theorem capacity_remove (c : Cache) (key : String) :
    (c.remove key).capacity = c.capacity := rfl

/-- Put an entry in front. If there are too many entries the one unused for longest is dropped. -/
def put (c : Cache) (key : String) (e : Entry) : Cache where
  capacity := c.capacity
  entries := ((key, e) :: c.others key).take c.capacity
  capacity_pos := c.capacity_pos
  length_le := List.length_take_le _ _
  nodup_keys := by
    have hkeys : (key :: (c.others key).keys).Nodup :=
      List.nodup_cons.mpr ⟨c.not_mem_keys_others key, c.nodup_keys_others key⟩
    rw [Entries.keys, List.map_take]
    exact hkeys.sublist (List.take_sublist _ _)

@[simp] theorem capacity_put (c : Cache) (key : String) (e : Entry) :
    (c.put key e).capacity = c.capacity := rfl

theorem entries_put (c : Cache) (key : String) (e : Entry) :
    (c.put key e).entries = ((key, e) :: c.others key).take c.capacity := rfl

/-- Read an entry, which makes it the one used last. An expired entry is removed. -/
def get (c : Cache) (key : String) : Option Catalog × Cache :=
  match c.entries.get? key with
  | none => (none, c)
  | some e => if e.isExpired then (none, c.remove key) else (some e.catalog, c.put key e)

/-- Write an entry, which makes it the one used last. -/
def set (c : Cache) (key : String) (catalog : Catalog) (timeToLive : Option Nat) : Cache :=
  c.put key ⟨catalog, timeToLive⟩

/-- A bounded cache as a store. It never fails. -/
def backend : CacheBackend Cache where
  get key c := let (found, c) := c.get key; (.ok found, c)
  set key catalog timeToLive c := (.ok (), c.set key catalog timeToLive)

end Cache

end Phrasebook
