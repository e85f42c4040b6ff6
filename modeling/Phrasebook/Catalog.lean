import Phrasebook.Entries

/-!
# Catalogs

A catalog is an ordered tree: a leaf is the text of a message, an inner node groups
messages under a key. A message is found under the dotted path of its keys.
-/

namespace Phrasebook

inductive Node where
  | text (s : String)
  | group (entries : List (String × Node))

/-- The messages of one domain in one locale. The keys at the top are distinct. -/
@[ext]
structure Catalog where
  entries : Entries Node
  nodup_keys : entries.keys.Nodup

namespace Catalog

def empty : Catalog := ⟨[], Entries.nodup_keys_nil⟩

instance : Inhabited Catalog := ⟨empty⟩

def isEmpty (c : Catalog) : Bool := c.entries.isEmpty

def length (c : Catalog) : Nat := c.entries.length

def get? (c : Catalog) (key : String) : Option Node := c.entries.get? key

/-- Set a key at the top of a catalog. -/
def insert (c : Catalog) (key : String) (node : Node) : Catalog :=
  ⟨c.entries.set key node, Entries.nodup_keys_set key node c.nodup_keys⟩

/-- The catalog of pairs that are set one after the other. -/
def ofList (pairs : List (String × Node)) : Catalog :=
  ⟨Entries.setAll [] pairs, Entries.nodup_keys_setAll pairs Entries.nodup_keys_nil⟩

/-- Put the top entries of another catalog over those of this one. A group replaces a whole
group. -/
def overlay (c other : Catalog) : Catalog :=
  ⟨c.entries.setAll other.entries, Entries.nodup_keys_setAll other.entries c.nodup_keys⟩

@[simp] theorem entries_ofList (pairs : List (String × Node)) :
    (ofList pairs).entries = Entries.setAll [] pairs := rfl

@[simp] theorem entries_overlay (c other : Catalog) :
    (c.overlay other).entries = c.entries.setAll other.entries := rfl

/-- The path of a key in a group with the given path. The root has the empty path. -/
def join (path key : String) : String := if path = "" then key else path ++ "." ++ key

mutual

/-- The texts under a node, depth first, with their paths. -/
def flattenNode (path : String) : Node → List (String × String)
  | .text s => [(path, s)]
  | .group entries => flattenEntries path entries

/-- The texts under the entries of a group. -/
def flattenEntries (path : String) : List (String × Node) → List (String × String)
  | [] => []
  | (key, node) :: rest => flattenNode (join path key) node ++ flattenEntries path rest

end

/-- All texts of a catalog with their dotted paths. -/
def flatten (c : Catalog) : List (String × String) := flattenEntries "" c.entries

@[simp] theorem flatten_empty : empty.flatten = [] := by
  simp [flatten, empty, flattenEntries]

theorem get?_insert (c : Catalog) (key other : String) (node : Node) :
    (c.insert key node).get? other = if other = key then some node else c.get? other :=
  Entries.get?_set ..

end Catalog

end Phrasebook
