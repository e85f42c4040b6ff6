import Phrasebook.Layers
import Phrasebook.Loader
import Phrasebook.Proofs.OverlaidEntries

/-!
# Loads through layers

Layers are the loaders that were added, each of them once. A load through layers gives a catalog
whatever some of them do: the first layer that has a key decides on its place and the last one on
its node, among those that do not fail. It does not matter how layers are grouped.
-/

namespace Phrasebook

namespace Layers

variable {α : Type} [DecidableEq α]

def ofAdded (first : α) (added : List α) : Layers α := added.foldl add (single first)

theorem toList_add (l : Layers α) (a : α) :
    (l.add a).toList = if a ∈ l.toList then l.toList else l.toList ++ [a] := by
  split
  · rename_i h
    exact toList_add_of_mem h
  · rename_i h
    exact toList_add_of_not_mem h

theorem toList_ofAdded (first : α) (added : List α) :
    (ofAdded first added).toList = (first :: added).eraseDups := by
  induction added using List.reverseRecOn with
  | nil => rfl
  | append_singleton added a ih =>
      rw [ofAdded, List.foldl_append, List.foldl_cons, List.foldl_nil, toList_add, ← ofAdded, ih,
        ← List.cons_append, eraseDups_concat]
      simp only [List.mem_eraseDups]

theorem toList_ofAdded_of_nodup {first : α} {added : List α} (h : (first :: added).Nodup) :
    (ofAdded first added).toList = first :: added := by
  rw [toList_ofAdded, eraseDups_of_nodup h]

theorem add_of_mem {l : Layers α} {a : α} (h : a ∈ l.toList) : l.add a = l := by
  rw [add, if_pos h]

end Layers

namespace Catalog

def layered (catalogs : List Catalog) : Catalog := catalogs.foldl overlay .empty

theorem layered_concat (catalogs : List Catalog) (c : Catalog) :
    layered (catalogs ++ [c]) = (layered catalogs).overlay c := by
  rw [layered, List.foldl_append]
  rfl

theorem entries_foldl_overlay (catalogs : List Catalog) (c : Catalog) :
    (catalogs.foldl overlay c).entries = c.entries.setAll (catalogs.flatMap entries) := by
  induction catalogs generalizing c with
  | nil => rfl
  | cons upper catalogs ih =>
      rw [List.foldl_cons, ih, List.flatMap_cons, Entries.setAll_append]
      rfl

theorem get?_overlay (c upper : Catalog) (key : String) :
    (c.overlay upper).get? key = (upper.get? key).or (c.get? key) := by
  rw [get?, entries_overlay, Entries.get?_setAll, Entries.lookup_reverse upper.nodup_keys]
  rfl

/-- The last catalog that has a key decides on its node. -/
theorem get?_layered (catalogs : List Catalog) (key : String) :
    (layered catalogs).get? key = (catalogs.filterMap fun c => c.get? key).getLast? := by
  induction catalogs using List.reverseRecOn with
  | nil => rfl
  | append_singleton catalogs c ih =>
      rw [layered_concat, get?_overlay, ih, List.filterMap_append]
      cases hget : c.get? key <;> simp [hget]

theorem keys_layered (catalogs : List Catalog) :
    (layered catalogs).entries.keys = (catalogs.flatMap fun c => c.entries.keys).eraseDups := by
  rw [layered, entries_foldl_overlay]
  have hkeys := Entries.keys_setAll Entries.nodup_keys_nil (catalogs.flatMap entries)
  rw [List.map_flatMap] at hkeys
  exact hkeys

/-- Catalogs can be put over each other before they are put over another one. -/
theorem overlay_layered (c : Catalog) (catalogs : List Catalog) :
    c.overlay (layered catalogs) = catalogs.foldl overlay c := by
  ext1
  rw [entries_overlay, layered, entries_foldl_overlay, entries_foldl_overlay]
  exact Entries.setAll_setAll_nil c.nodup_keys _

end Catalog

namespace Loader

variable {σ : Type}

def loadEach (domain locale : String) :
    List (Loader σ) → σ → List (Except LoadError Catalog) × σ
  | [], state => ([], state)
  | loader :: rest, state =>
    let (result, state) := loader domain locale state
    let (results, state) := loadEach domain locale rest state
    (result :: results, state)

def catalogs (results : List (Except LoadError Catalog)) : List Catalog :=
  results.filterMap Except.toOption

theorem overlayAll_eq (domain locale : String) (loaders : List (Loader σ)) (c : Catalog)
    (state : σ) :
    overlayAll domain locale loaders c state =
      ((catalogs (loadEach domain locale loaders state).1).foldl Catalog.overlay c,
        (loadEach domain locale loaders state).2) := by
  induction loaders generalizing c state with
  | nil => rfl
  | cons loader rest ih =>
      rw [overlayAll, loadEach]
      cases loader domain locale state with
      | mk result state =>
          cases result with
          | ok upper => exact ih (c.overlay upper) state
          | error e => exact ih c state

theorem layered_eq (loaders : List (Loader σ)) (domain locale : String) (state : σ) :
    layered loaders domain locale state =
      (.ok (.layered (catalogs (loadEach domain locale loaders state).1)),
        (loadEach domain locale loaders state).2) := by
  rw [layered, overlayAll_eq]
  rfl

theorem overlayAll_append (domain locale : String) (loaders rest : List (Loader σ)) (c : Catalog)
    (state : σ) :
    overlayAll domain locale (loaders ++ rest) c state =
      overlayAll domain locale rest (overlayAll domain locale loaders c state).1
        (overlayAll domain locale loaders c state).2 := by
  induction loaders generalizing c state with
  | nil => rfl
  | cons loader loaders ih =>
      rw [List.cons_append, overlayAll, overlayAll]
      cases loader domain locale state with
      | mk result state =>
          cases result with
          | ok upper => exact ih (c.overlay upper) state
          | error e => exact ih c state

theorem overlayAll_groups (domain locale : String) (groups : List (List (Loader σ)))
    (c : Catalog) (state : σ) :
    overlayAll domain locale (groups.map layered) c state =
      overlayAll domain locale groups.flatten c state := by
  induction groups generalizing c state with
  | nil => rfl
  | cons group groups ih =>
      rw [List.map_cons, List.flatten_cons, overlayAll_append, overlayAll, layered_eq]
      dsimp only
      rw [ih, Catalog.overlay_layered, overlayAll_eq _ _ group]

theorem layered_groups (groups : List (List (Loader σ))) :
    layered (groups.map layered) = layered groups.flatten := by
  funext domain locale state
  rw [layered, layered, overlayAll_groups]

/-- The law of layers. They are the loaders added, each once, in the order of first addition. A
load gives every key the node of the last layer that has it and does not fail, in the order in
which the keys first appear. Consecutive layers can be grouped into layers of their own. -/
theorem layered_ofAdded {α : Type} [DecidableEq α] (loaderOf : α → Loader σ) (first : α)
    (added : List α) :
    (Layers.ofAdded first added).toList = (first :: added).eraseDups ∧
    (Layers.ofAdded first added).length = (first :: added).toFinset.card ∧
    (∀ a ∈ first :: added, (Layers.ofAdded first added).add a = Layers.ofAdded first added) ∧
    (∀ domain locale state, ∃ results after c,
      loadEach domain locale ((Layers.ofAdded first added).toList.map loaderOf) state =
        (results, after) ∧
      layered ((Layers.ofAdded first added).toList.map loaderOf) domain locale state =
        (.ok c, after) ∧
      (∀ key, c.get? key = ((catalogs results).filterMap fun c => c.get? key).getLast?) ∧
      c.entries.keys = ((catalogs results).flatMap fun c => c.entries.keys).eraseDups) ∧
    ∀ groups : List (α × List α),
      groups.flatMap (fun group => group.1 :: group.2) = (Layers.ofAdded first added).toList →
      layered (groups.map fun group =>
          layered ((Layers.ofAdded group.1 group.2).toList.map loaderOf)) =
        layered ((Layers.ofAdded first added).toList.map loaderOf) := by
  refine ⟨Layers.toList_ofAdded first added, ?_, fun a ha => Layers.add_of_mem ?_,
    fun domain locale state => ?_, fun groups hgroups => ?_⟩
  · rw [Layers.length, Layers.toList_ofAdded, length_eraseDups]
  · rw [Layers.toList_ofAdded]
    exact List.mem_eraseDups.mpr ha
  · exact ⟨_, _, _, rfl, layered_eq _ domain locale state, Catalog.get?_layered _,
      Catalog.keys_layered _⟩
  · -- The groups are parts of a list without repetitions, so none of them drops a layer.
    have hnodup : (groups.flatMap fun group => group.1 :: group.2).Nodup := by
      rw [hgroups, Layers.toList_ofAdded]
      exact nodup_eraseDups _
    have hgroup : ∀ group ∈ groups,
        (Layers.ofAdded group.1 group.2).toList = group.1 :: group.2 := by
      intro group hmem
      exact Layers.toList_ofAdded_of_nodup ((List.nodup_flatMap.mp hnodup).1 group hmem)
    rw [← hgroups, List.map_flatMap, List.flatMap, ← layered_groups, List.map_map]
    congr 1
    apply List.map_congr_left
    intro group hmem
    rw [hgroup group hmem]
    rfl

def threeLayers : Nat → Loader Unit
  | 0 => ofCatalogs [(("app", "en"), .ofList [("a", .text "low"), ("b", .text "low")])]
  | 1 => failing "boom"
  | _ => ofCatalogs [(("app", "en"), .ofList [("c", .text "up"), ("b", .text "up")])]

theorem layered_three_in_groups :
    (Layers.ofAdded 0 [1, 0, 2, 1]).toList = [0, 1, 2] ∧
    (∃ after c, layered ([0, 1, 2].map threeLayers) "app" "en" () = (.ok c, after) ∧
      c.get? "b" = some (.text "up") ∧ c.entries.keys = ["a", "b", "c"]) ∧
    layered [layered ([0, 1].map threeLayers), layered ([2].map threeLayers)] =
      layered ([0, 1, 2].map threeLayers) := by
  obtain ⟨hlayers, -, -, hload, hgroups⟩ := layered_ofAdded threeLayers 0 [1, 0, 2, 1]
  have hlist : (Layers.ofAdded 0 [1, 0, 2, 1]).toList = [0, 1, 2] := by
    rw [hlayers]
    decide
  rw [hlist] at hload hgroups
  obtain ⟨results, after, c, hresults, hc, hget, hkeys⟩ := hload "app" "en" ()
  cases hresults
  refine ⟨hlist, ⟨_, c, hc, hget "b", hkeys.trans ?_⟩,
    hgroups [(0, [1]), (2, [])] rfl⟩
  decide

end Loader

end Phrasebook
