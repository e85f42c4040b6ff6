import Phrasebook.Proofs.CatalogLeaves

/-!
# Paths through a catalog

A path of keys leads to a node of a catalog, and the texts among these nodes are the leaves. Each of
them is flattened once, under the dotted key of its path. A path that goes on from an empty key at
the top is the exception: the point behind that key is left out, so the path shares its dotted key
with a shorter one.
-/

namespace Phrasebook

namespace Node

def entries : Node → Entries Node
  | .text _ => []
  | .group entries => entries

/-- The node at the end of a path of keys. -/
def at? : Node → List String → Option Node
  | node, [] => some node
  | node, key :: path => (Entries.get? key node.entries).bind fun next => next.at? path

@[simp] theorem at?_nil (node : Node) : node.at? [] = some node := rfl

theorem at?_cons (node : Node) (key : String) (path : List String) :
    node.at? (key :: path) = (Entries.get? key node.entries).bind fun next => next.at? path := rfl

end Node

namespace Catalog

/-- The node at the end of a path of keys. -/
def at? (c : Catalog) (path : List String) : Option Node := (Node.group c.entries).at? path

theorem DistinctNode.keys_nodup {node : Node} (h : DistinctNode node) :
    node.entries.keys.Nodup := by
  cases h with
  | text s => exact Entries.nodup_keys_nil
  | group hnodup _ => exact hnodup

theorem DistinctNode.of_mem {node : Node} (h : DistinctNode node) {entry : String × Node}
    (hmem : entry ∈ node.entries) : DistinctNode entry.2 := by
  cases h with
  | text s => cases hmem
  | group _ hnodes => exact hnodes entry hmem

mutual

def decideDistinctNode : (node : Node) → Decidable (DistinctNode node)
  | .text s => .isTrue (.text s)
  | .group entries =>
    have := decideDistinctEntries entries
    decidable_of_iff ((Entries.keys entries).Nodup ∧ ∀ entry ∈ entries, DistinctNode entry.2)
      ⟨fun h => .group h.1 h.2, fun h => ⟨h.keys_nodup, fun _ hmem => h.of_mem hmem⟩⟩

def decideDistinctEntries :
    (entries : List (String × Node)) → Decidable (∀ entry ∈ entries, DistinctNode entry.2)
  | [] => .isTrue nofun
  | (key, node) :: rest =>
    have := decideDistinctNode node
    have := decideDistinctEntries rest
    decidable_of_iff (DistinctNode node ∧ ∀ entry ∈ rest, DistinctNode entry.2)
      (@List.forall_mem_cons _ (fun entry => DistinctNode entry.2) (key, node) rest).symm

end

instance (node : Node) : Decidable (DistinctNode node) := decideDistinctNode node

instance (c : Catalog) : Decidable c.HasDistinctKeys :=
  inferInstanceAs (Decidable (DistinctNode _))

theorem mem_nodeLeaves_nil_iff (node : Node) (text : String) :
    ([], text) ∈ nodeLeaves node ↔ node = .text text := by
  cases node with
  | text s => simp [nodeLeaves, eq_comm]
  | group entries =>
      rw [nodeLeaves, mem_entryLeaves_iff]
      simp

theorem mem_nodeLeaves_cons_iff (node : Node) (key : String) (path : List String)
    (text : String) : (key :: path, text) ∈ nodeLeaves node ↔
      ∃ next, (key, next) ∈ node.entries ∧ (path, text) ∈ nodeLeaves next := by
  cases node with
  | text s => simp [nodeLeaves, Node.entries]
  | group entries =>
      rw [nodeLeaves, mem_entryLeaves_iff]
      constructor
      · rintro ⟨first, next, rest, hmem, hleaf, hpath⟩
        obtain ⟨rfl, rfl⟩ := List.cons.inj hpath
        exact ⟨next, hmem, hleaf⟩
      · rintro ⟨next, hmem, hleaf⟩
        exact ⟨key, next, path, hmem, hleaf, rfl⟩

theorem mem_nodeLeaves_iff {node : Node} (h : DistinctNode node) (path : List String)
    (text : String) : (path, text) ∈ nodeLeaves node ↔ node.at? path = some (.text text) := by
  induction path generalizing node with
  | nil => rw [mem_nodeLeaves_nil_iff, Node.at?_nil, Option.some.injEq]
  | cons key path ih =>
      rw [mem_nodeLeaves_cons_iff, Node.at?_cons, Option.bind_eq_some_iff]
      constructor
      · rintro ⟨next, hmem, hleaf⟩
        exact ⟨next, Entries.get?_of_mem h.keys_nodup hmem, (ih (h.of_mem hmem)).mp hleaf⟩
      · rintro ⟨next, hget, hleaf⟩
        have hmem := Entries.mem_of_get? hget
        exact ⟨next, hmem, (ih (h.of_mem hmem)).mpr hleaf⟩

theorem mem_leaves_iff {c : Catalog} (h : c.HasDistinctKeys) (path : List String)
    (text : String) : (path, text) ∈ c.leaves ↔ c.at? path = some (.text text) := by
  rw [at?, ← mem_nodeLeaves_iff h, nodeLeaves, leaves]

/-! ## Keys that are not shown -/

theorem dotted_cons {path : List String} (h : path ≠ []) (key : String) :
    dotted (key :: path) = key ++ "." ++ dotted path := by
  obtain ⟨next, rest, rfl⟩ := List.exists_cons_of_ne_nil h
  rw [dotted, String.intercalate_cons_cons]
  rfl

theorem shown_empty_cons (path : List String) : shown ("" :: path) = shown path := by
  simp [shown]

theorem length_dotted_shown_le (path : List String) :
    (dotted (shown path)).length ≤ (dotted path).length := by
  induction path with
  | nil => exact Nat.le_refl _
  | cons key path ih =>
      by_cases hkey : key = ""
      · subst hkey
        rw [shown_empty_cons]
        by_cases hpath : path = []
        · subst hpath
          exact Nat.le_refl _
        · rw [dotted_cons hpath, String.length_append, String.length_append]
          omega
      · rw [shown_of_ne hkey]

/-- A dotted key shows all keys of a path unless the first of several is empty. -/
theorem dotted_shown_eq_iff (path : List String) :
    dotted (shown path) = dotted path ↔ ¬ ∃ key rest, path = "" :: key :: rest := by
  cases path with
  | nil => simp [shown]
  | cons first path =>
      by_cases hfirst : first = ""
      · subst hfirst
        rw [shown_empty_cons]
        cases path with
        | nil => simp [shown, dotted]
        | cons key rest =>
            have hle := length_dotted_shown_le (key :: rest)
            have hlength := congrArg String.length (dotted_cons (List.cons_ne_nil key rest) "")
            rw [String.length_append, String.length_append] at hlength
            have hpoint : ".".length = 1 := rfl
            constructor
            · intro heq
              rw [heq] at hle
              omega
            · intro h
              exact absurd ⟨key, rest, rfl⟩ h
      · rw [shown_of_ne hfirst]
        simp [hfirst]

/-- A catalog is flattened to one pair for each leaf, in their order. The dotted keys are those of
the whole paths exactly if no leaf lies in a group with the empty key at the top. -/
theorem flatten_paths (c : Catalog) :
    c.flatten = c.leaves.map (fun leaf => (dotted (shown leaf.1), leaf.2)) ∧
    (c.flatten = c.leaves.map (fun leaf => (dotted leaf.1, leaf.2)) ↔
      ∀ leaf ∈ c.leaves, ¬ ∃ key rest, leaf.1 = "" :: key :: rest) ∧
    (c.HasDistinctKeys → (c.leaves.map Prod.fst).Nodup ∧
      ∀ path text, (path, text) ∈ c.leaves ↔ c.at? path = some (.text text)) := by
  refine ⟨flatten_eq_map_shown c, ?_, fun h => ⟨nodup_entryLeaves h, mem_leaves_iff h⟩⟩
  rw [flatten_eq_map_shown, List.map_inj_left]
  have hleaf : ∀ leaf : List String × String,
      (dotted (shown leaf.1), leaf.2) = (dotted leaf.1, leaf.2) ↔
        ¬ ∃ key rest, leaf.1 = "" :: key :: rest := by
    intro leaf
    rw [Prod.mk.injEq, and_iff_left rfl, dotted_shown_eq_iff]
  simp only [hleaf]

/-- Two texts of a catalog get the dotted key `b`. -/
theorem flatten_paths_empty_key :
    let c := Catalog.ofList [("", .group [("b", .text "nested"), ("", .text "twice")]),
      ("b", .text "top"), ("a", .group [("", .group [("d", .text "inner")]), ("e", .group [])])]
    c.HasDistinctKeys ∧ (c.leaves.map Prod.fst).Nodup ∧
    c.at? ["", "b"] = some (.text "nested") ∧ (["", "b"], "nested") ∈ c.leaves ∧
    c.flatten = [("b", "nested"), ("", "twice"), ("b", "top"), ("a..d", "inner")] ∧
    c.flatten ≠ c.leaves.map (fun leaf => (dotted leaf.1, leaf.2)) ∧
    c.leaves.map (fun leaf => (dotted leaf.1, leaf.2)) =
      [(".b", "nested"), (".", "twice"), ("b", "top"), ("a..d", "inner")] := by
  intro c
  have hdistinct : c.HasDistinctKeys := by decide
  obtain ⟨-, hwhole, hleaves⟩ := flatten_paths c
  obtain ⟨hnodup, hat⟩ := hleaves hdistinct
  have hget : c.at? ["", "b"] = some (.text "nested") := rfl
  have hmem := (hat ["", "b"] "nested").mpr hget
  refine ⟨hdistinct, hnodup, hget, hmem, by decide +kernel, fun heq => ?_, by decide +kernel⟩
  exact hwhole.mp heq _ hmem ⟨"b", [], rfl⟩

end Catalog

end Phrasebook
