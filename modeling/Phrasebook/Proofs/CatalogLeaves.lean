import Phrasebook.Proofs.MessageVariants

/-!
# Leaves of a catalog

Every text of a catalog is reached by a path of keys, and its dotted key shows the path without the
empty keys at its front. If no key is empty or has a point in it, different paths give different
dotted keys, so there is one message for each text.
-/

namespace Phrasebook.Catalog

mutual

/-- The texts under a node, each with the keys on the way to it. -/
def nodeLeaves : Node → List (List String × String)
  | .text s => [([], s)]
  | .group entries => entryLeaves entries

def entryLeaves : List (String × Node) → List (List String × String)
  | [] => []
  | (key, node) :: rest =>
    (nodeLeaves node).map (fun leaf => (key :: leaf.1, leaf.2)) ++ entryLeaves rest

end

def leaves (c : Catalog) : List (List String × String) := entryLeaves c.entries

def dotted (path : List String) : String := ".".intercalate path

/-- The keys of a path that its dotted key shows: empty ones at the front leave no point behind. -/
def shown (path : List String) : List String := path.dropWhile (· = "")

inductive DistinctNode : Node → Prop where
  | text (s : String) : DistinctNode (.text s)
  | group {entries : Entries Node} : entries.keys.Nodup →
      (∀ entry ∈ entries, DistinctNode entry.2) → DistinctNode (.group entries)

def HasDistinctKeys (c : Catalog) : Prop := DistinctNode (.group c.entries)

def IsPlain (key : String) : Prop := key ≠ "" ∧ '.' ∉ key.toList

instance (key : String) : Decidable (IsPlain key) := inferInstanceAs (Decidable (_ ∧ _))

inductive PlainNode : Node → Prop where
  | text (s : String) : PlainNode (.text s)
  | group {entries : Entries Node} : entries.keys.Nodup → (∀ key ∈ entries.keys, IsPlain key) →
      (∀ entry ∈ entries, PlainNode entry.2) → PlainNode (.group entries)

/-- In a catalog and all its groups the keys are plain and distinct. -/
def HasPlainKeys (c : Catalog) : Prop := PlainNode (.group c.entries)

/-! ## Dotted keys -/

theorem dotted_concat {path : List String} (h : path ≠ []) (key : String) :
    dotted (path ++ [key]) = dotted path ++ "." ++ key := by
  rw [dotted, String.intercalate_append_of_ne_nil h (List.cons_ne_nil _ _),
    String.intercalate_singleton]
  rfl

theorem dotted_ne_empty {path : List String} (hne : path ≠ []) (h : path ≠ [""]) :
    dotted path ≠ "" := by
  obtain ⟨key, rest, rfl⟩ := List.exists_cons_of_ne_nil hne
  rw [dotted]
  cases rest with
  | nil =>
      rw [String.intercalate_singleton]
      rintro rfl
      exact h rfl
  | cons next rest =>
      rw [String.intercalate_cons_cons]
      intro hempty
      have hlist := congrArg String.toList hempty
      simp at hlist

theorem join_dotted {path : List String} (hne : path ≠ []) (h : path ≠ [""]) (key : String) :
    join (dotted path) key = dotted (path ++ [key]) := by
  rw [join, if_neg (dotted_ne_empty hne h), dotted_concat hne]

theorem splitOn_dotted {path : List String} (hne : path ≠ [])
    (h : ∀ key ∈ path, '.' ∉ key.toList) :
    (dotted path).toList.splitOn '.' = path.map String.toList := by
  have hpoints : ∀ key ∈ path.map String.toList, '.' ∉ key := by
    intro key hkey
    obtain ⟨part, hpart, rfl⟩ := List.mem_map.mp hkey
    exact h part hpart
  rw [dotted, String.toList_intercalate]
  exact List.splitOn_intercalate '.' hpoints (by simpa using hne)

theorem eq_of_dotted_eq {path other : List String} (hne : path ≠ []) (hne' : other ≠ [])
    (h : ∀ key ∈ path, '.' ∉ key.toList) (h' : ∀ key ∈ other, '.' ∉ key.toList)
    (heq : dotted path = dotted other) : path = other := by
  have hparts := splitOn_dotted hne h
  rw [heq, splitOn_dotted hne' h'] at hparts
  exact (List.map_injective_iff.mpr fun _ _ => String.toList_injective) hparts.symm

theorem shown_of_ne {key : String} (h : key ≠ "") (path : List String) :
    shown (key :: path) = key :: path := by
  simp [shown, h]

/-! ## Flattening -/

mutual

theorem flattenNode_dotted {path : List String} (hne : path ≠ []) (h : path ≠ [""]) :
    ∀ node : Node, flattenNode (dotted path) node =
      (nodeLeaves node).map fun leaf => (dotted (path ++ leaf.1), leaf.2)
  | .text s => by simp [flattenNode, nodeLeaves]
  | .group entries => by rw [flattenNode, nodeLeaves, flattenEntries_dotted hne h entries]

theorem flattenEntries_dotted {path : List String} (hne : path ≠ []) (h : path ≠ [""]) :
    ∀ entries : List (String × Node), flattenEntries (dotted path) entries =
      (entryLeaves entries).map fun leaf => (dotted (path ++ leaf.1), leaf.2)
  | [] => by rw [flattenEntries, entryLeaves, List.map_nil]
  | (key, node) :: rest => by
      have hlonger : path ++ [key] ≠ [""] := by
        intro heq
        have hlength := congrArg List.length heq
        simp only [List.length_append, List.length_singleton, Nat.add_eq_right] at hlength
        exact hne (List.length_eq_zero_iff.mp hlength)
      have hnode := flattenNode_dotted (by simp) hlonger node
      rw [flattenEntries, entryLeaves, join_dotted hne h, hnode,
        flattenEntries_dotted hne h rest, List.map_append, List.map_map]
      simp [Function.comp_def]

end

mutual

/-- At the root a path is still empty after keys that are empty. -/
theorem flattenNode_empty :
    ∀ node : Node, flattenNode "" node =
      (nodeLeaves node).map fun leaf => (dotted (shown leaf.1), leaf.2)
  | .text s => by
      rw [flattenNode, nodeLeaves]
      rfl
  | .group entries => by rw [flattenNode, nodeLeaves, flattenEntries_empty entries]

theorem flattenEntries_empty :
    ∀ entries : List (String × Node), flattenEntries "" entries =
      (entryLeaves entries).map fun leaf => (dotted (shown leaf.1), leaf.2)
  | [] => by rw [flattenEntries, entryLeaves, List.map_nil]
  | (key, node) :: rest => by
      have hjoin : join "" key = key := rfl
      have hnode : flattenNode key node =
          (nodeLeaves node).map fun leaf => (dotted (shown (key :: leaf.1)), leaf.2) := by
        by_cases hkey : key = ""
        · subst hkey
          exact flattenNode_empty node
        · have hdotted := flattenNode_dotted (List.cons_ne_nil key []) (by simpa using hkey) node
          rw [dotted, String.intercalate_singleton] at hdotted
          simp only [shown_of_ne hkey]
          exact hdotted
      rw [flattenEntries, entryLeaves, hjoin, hnode, flattenEntries_empty rest, List.map_append,
        List.map_map]
      rfl

end

theorem flatten_eq_map_shown (c : Catalog) :
    c.flatten = c.leaves.map fun leaf => (dotted (shown leaf.1), leaf.2) :=
  flattenEntries_empty c.entries

/-! ## Paths -/

theorem PlainNode.distinct {node : Node} (h : PlainNode node) : DistinctNode node := by
  induction h with
  | text s => exact .text s
  | group hnodup _ _ ih => exact .group hnodup ih

theorem DistinctNode.head {key : String} {node : Node} {rest : Entries Node}
    (h : DistinctNode (.group ((key, node) :: rest))) : key ∉ rest.keys ∧ DistinctNode node := by
  cases h with
  | group hnodup hnodes =>
      exact ⟨(List.nodup_cons.mp hnodup).1, hnodes (key, node) List.mem_cons_self⟩

theorem DistinctNode.tail {entry : String × Node} {rest : Entries Node}
    (h : DistinctNode (.group (entry :: rest))) : DistinctNode (.group rest) := by
  cases h with
  | group hnodup hnodes =>
      exact .group (List.nodup_cons.mp hnodup).2
        (fun entry hentry => hnodes entry (List.mem_cons_of_mem _ hentry))

theorem PlainNode.head {key : String} {node : Node} {rest : Entries Node}
    (h : PlainNode (.group ((key, node) :: rest))) :
    IsPlain key ∧ key ∉ rest.keys ∧ PlainNode node := by
  cases h with
  | group hnodup hkeys hnodes =>
      exact ⟨hkeys key List.mem_cons_self, (List.nodup_cons.mp hnodup).1,
        hnodes (key, node) List.mem_cons_self⟩

theorem PlainNode.tail {entry : String × Node} {rest : Entries Node}
    (h : PlainNode (.group (entry :: rest))) : PlainNode (.group rest) := by
  cases h with
  | group hnodup hkeys hnodes =>
      exact .group (List.nodup_cons.mp hnodup).2
        (fun key hkey => hkeys key (List.mem_cons_of_mem _ hkey))
        (fun entry hentry => hnodes entry (List.mem_cons_of_mem _ hentry))

theorem mem_entryLeaves_iff {entries : Entries Node} {leaf : List String × String} :
    leaf ∈ entryLeaves entries ↔
      ∃ key node path, (key, node) ∈ entries ∧ (path, leaf.2) ∈ nodeLeaves node ∧
        leaf.1 = key :: path := by
  induction entries with
  | nil => simp [entryLeaves]
  | cons entry rest ih =>
      obtain ⟨first, top⟩ := entry
      rw [entryLeaves, List.mem_append, ih]
      constructor
      · rintro (h | ⟨key, node, path, hmem, hpath⟩)
        · obtain ⟨inner, hinner, rfl⟩ := List.mem_map.mp h
          exact ⟨first, top, inner.1, List.mem_cons_self, hinner, rfl⟩
        · exact ⟨key, node, path, List.mem_cons_of_mem _ hmem, hpath⟩
      · rintro ⟨key, node, path, hmem, hinner, hpath⟩
        rcases List.mem_cons.mp hmem with heq | hmem
        · obtain ⟨rfl, rfl⟩ := Prod.mk.inj heq
          exact Or.inl (List.mem_map.mpr ⟨(path, leaf.2), hinner, Prod.ext hpath.symm rfl⟩)
        · exact Or.inr ⟨key, node, path, hmem, hinner, hpath⟩

theorem exists_head_of_mem_entryLeaves {entries : Entries Node} {leaf : List String × String}
    (h : leaf ∈ entryLeaves entries) : ∃ key path, leaf.1 = key :: path ∧ key ∈ entries.keys := by
  obtain ⟨key, node, path, hmem, -, hpath⟩ := mem_entryLeaves_iff.mp h
  exact ⟨key, path, hpath, List.mem_map_of_mem hmem⟩

mutual

theorem isPlain_of_mem_nodeLeaves :
    ∀ {node : Node}, PlainNode node → ∀ leaf ∈ nodeLeaves node, ∀ key ∈ leaf.1, IsPlain key
  | .text s, _, leaf, hleaf, key, hkey => by
      rw [nodeLeaves, List.mem_singleton] at hleaf
      rw [hleaf] at hkey
      cases hkey
  | .group entries, h, leaf, hleaf, key, hkey => by
      rw [nodeLeaves] at hleaf
      exact isPlain_of_mem_entryLeaves h leaf hleaf key hkey

theorem isPlain_of_mem_entryLeaves :
    ∀ {entries : List (String × Node)}, PlainNode (.group entries) →
      ∀ leaf ∈ entryLeaves entries, ∀ key ∈ leaf.1, IsPlain key
  | [], _, leaf, hleaf, key, hkey => by
      rw [entryLeaves] at hleaf
      cases hleaf
  | (first, node) :: rest, h, leaf, hleaf, key, hkey => by
      rw [entryLeaves] at hleaf
      rcases List.mem_append.mp hleaf with hleaf | hleaf
      · obtain ⟨inner, hinner, rfl⟩ := List.mem_map.mp hleaf
        rcases List.mem_cons.mp hkey with rfl | hkey
        · exact h.head.1
        · exact isPlain_of_mem_nodeLeaves h.head.2.2 inner hinner key hkey
      · exact isPlain_of_mem_entryLeaves h.tail leaf hleaf key hkey

end

mutual

theorem nodup_nodeLeaves :
    ∀ {node : Node}, DistinctNode node → ((nodeLeaves node).map Prod.fst).Nodup
  | .text s, _ => by
      rw [nodeLeaves]
      exact List.nodup_singleton _
  | .group entries, h => by
      rw [nodeLeaves]
      exact nodup_entryLeaves h

theorem nodup_entryLeaves :
    ∀ {entries : List (String × Node)}, DistinctNode (.group entries) →
      ((entryLeaves entries).map Prod.fst).Nodup
  | [], _ => by
      rw [entryLeaves]
      exact List.nodup_nil
  | (key, node) :: rest, h => by
      have hpaths : ((nodeLeaves node).map fun leaf => (key :: leaf.1, leaf.2)).map Prod.fst =
          ((nodeLeaves node).map Prod.fst).map (key :: ·) := by
        rw [List.map_map, List.map_map]
        rfl
      rw [entryLeaves, List.map_append, hpaths]
      refine ((nodup_nodeLeaves h.head.2).map (List.cons_injective)).append
        (nodup_entryLeaves h.tail) ?_
      -- A path in the rest starts with another key.
      intro path hpath hrest
      obtain ⟨inner, -, rfl⟩ := List.mem_map.mp hpath
      obtain ⟨leaf, hleaf, heq⟩ := List.mem_map.mp hrest
      obtain ⟨first, path, hpath, hfirst⟩ := exists_head_of_mem_entryLeaves hleaf
      rw [hpath, List.cons.injEq] at heq
      rw [heq.1] at hfirst
      exact h.head.1 hfirst

end

theorem nodup_dotted_leaves {c : Catalog} (h : c.HasPlainKeys) :
    (c.leaves.map fun leaf => dotted leaf.1).Nodup := by
  have hpaths : (c.leaves.map fun leaf => dotted leaf.1) =
      (c.leaves.map Prod.fst).map dotted := by
    rw [List.map_map]
    rfl
  rw [hpaths]
  apply (nodup_entryLeaves h.distinct).map_on
  intro path hpath other hother heq
  obtain ⟨leaf, hleaf, rfl⟩ := List.mem_map.mp hpath
  obtain ⟨leaf', hleaf', rfl⟩ := List.mem_map.mp hother
  have hne : ∀ leaf ∈ c.leaves, leaf.1 ≠ [] := by
    intro leaf hleaf
    obtain ⟨key, rest, hpath, -⟩ := exists_head_of_mem_entryLeaves hleaf
    rw [hpath]
    exact List.cons_ne_nil _ _
  exact eq_of_dotted_eq (hne leaf hleaf) (hne leaf' hleaf')
    (fun key hkey => (isPlain_of_mem_entryLeaves h leaf hleaf key hkey).2)
    (fun key hkey => (isPlain_of_mem_entryLeaves h leaf' hleaf' key hkey).2) heq

/-! ## Messages -/

theorem flatten_of_hasPlainKeys {c : Catalog} (h : c.HasPlainKeys) :
    c.flatten = c.leaves.map fun leaf => (dotted leaf.1, leaf.2) := by
  rw [flatten_eq_map_shown]
  apply List.map_congr_left
  intro leaf hleaf
  obtain ⟨key, path, hpath, -⟩ := exists_head_of_mem_entryLeaves hleaf
  have hplain : IsPlain key :=
    isPlain_of_mem_entryLeaves h leaf hleaf key (hpath ▸ List.mem_cons_self)
  rw [hpath, shown_of_ne hplain.1]

theorem texts_of_hasPlainKeys {c : Catalog} (h : c.HasPlainKeys) :
    (Messages.ofCatalog c).texts = c.leaves.map fun leaf => (dotted leaf.1, leaf.2) := by
  have hkeys : Entries.keys (c.leaves.map fun leaf => (dotted leaf.1, leaf.2)) =
      c.leaves.map fun leaf => dotted leaf.1 := by
    rw [Entries.keys, List.map_map]
    rfl
  have hnodup : (Entries.keys (c.leaves.map fun leaf => (dotted leaf.1, leaf.2))).Nodup := by
    rw [hkeys]
    exact nodup_dotted_leaves h
  rw [Messages.texts_ofCatalog, flatten_of_hasPlainKeys h, Entries.setAll_nil_of_nodup hnodup]

theorem text?_of_hasPlainKeys {c : Catalog} (h : c.HasPlainKeys) (key text : String) :
    (Messages.ofCatalog c).text? key = some text ↔
      ∃ path, (path, text) ∈ c.leaves ∧ key = dotted path := by
  rw [Messages.text?]
  constructor
  · intro hget
    have hmem := Entries.mem_of_get? hget
    rw [texts_of_hasPlainKeys h] at hmem
    obtain ⟨⟨path, found⟩, hleaf, heq⟩ := List.mem_map.mp hmem
    obtain ⟨rfl, rfl⟩ := Prod.mk.inj heq
    exact ⟨path, hleaf, rfl⟩
  · rintro ⟨path, hleaf, rfl⟩
    apply Entries.get?_of_mem (Messages.ofCatalog c).nodup_keys
    rw [texts_of_hasPlainKeys h]
    exact List.mem_map.mpr ⟨(path, text), hleaf, rfl⟩

end Phrasebook.Catalog
