import Phrasebook.Document.Yaml

/-!
# Tagged values

Tags make no difference to what a value becomes in a catalog: not on scalars, not on collections and
not on keys, however deep. The root of a document is the exception. A tag on it hides the mapping
below, so the document holds no messages.
-/

namespace Phrasebook.Document.Yaml

mutual

/-- The value without its tags. Of two keys that differ in tags alone both are kept. -/
def untagged : Yaml → Yaml
  | null => null
  | bool b => bool b
  | number n => number n
  | string s => string s
  | sequence items => sequence (untaggedItems items)
  | mapping entries => mapping (untaggedEntries entries)
  | tagged _ value => value.untagged

def untaggedItems : List Yaml → List Yaml
  | [] => []
  | item :: rest => item.untagged :: untaggedItems rest

def untaggedEntries : List (Yaml × Yaml) → List (Yaml × Yaml)
  | [] => []
  | (key, value) :: rest => (key.untagged, value.untagged) :: untaggedEntries rest

end

def isTagged : Yaml → Bool
  | tagged .. => true
  | _ => false

theorem scalar?_untagged : ∀ value : Yaml, value.untagged.scalar? = value.scalar?
  | .null => by rw [untagged]
  | .bool _ => by rw [untagged]
  | .number _ => by rw [untagged]
  | .string _ => by rw [untagged]
  | .sequence _ => by
      rw [untagged]
      rfl
  | .mapping _ => by
      rw [untagged]
      rfl
  | .tagged _ value => by rw [untagged, scalar?, scalar?_untagged value]

theorem checkDepth_checkDepth (depth : Nat) (rest : Converted) :
    checkDepth depth (checkDepth depth rest) = checkDepth depth rest := by
  unfold checkDepth
  split <;> rfl

theorem toNode_tagged (depth : Nat) (tag : String) (value : Yaml) :
    (tagged tag value).toNode depth = value.toNode depth := by
  rw [toNode]
  cases value <;> simp only [toNode, checkDepth_checkDepth]

mutual

theorem toNode_untagged (depth : Nat) :
    ∀ value : Yaml, value.untagged.toNode depth = value.toNode depth
  | .null => by rw [untagged]
  | .bool _ => by rw [untagged]
  | .number _ => by rw [untagged]
  | .string _ => by rw [untagged]
  | .sequence items => by
      rw [untagged, toNode, toNode, itemNodes_untaggedItems depth 0 [] items]
  | .mapping entries => by
      rw [untagged, toNode, toNode, entryNodes_untaggedEntries depth [] entries]
  | .tagged tag value => by
      rw [untagged, toNode_tagged, toNode_untagged depth value]

theorem itemNodes_untaggedItems (depth index : Nat) (done : Entries Node) :
    ∀ items : List Yaml,
      itemNodes depth index done (untaggedItems items) = itemNodes depth index done items
  | [] => by rw [untaggedItems]
  | item :: rest => by
      rw [untaggedItems, itemNodes, itemNodes, toNode_untagged (depth + 1) item]
      cases item.toNode (depth + 1) with
      | error e => rfl
      | ok node => exact itemNodes_untaggedItems depth (index + 1) _ rest

theorem entryNodes_untaggedEntries (depth : Nat) (done : Entries Node) :
    ∀ entries : List (Yaml × Yaml),
      entryNodes depth done (untaggedEntries entries) = entryNodes depth done entries
  | [] => by rw [untaggedEntries]
  | (key, value) :: rest => by
      rw [untaggedEntries, entryNodes, entryNodes, scalar?_untagged,
        toNode_untagged (depth + 1) value]
      cases key.scalar? with
      | none => rfl
      | some key =>
          cases value.toNode (depth + 1) with
          | error e => rfl
          | ok node => exact entryNodes_untaggedEntries depth _ rest

end

theorem toCatalog_untagged_of_not_isTagged {value : Yaml} (h : value.isTagged = false) :
    value.untagged.toCatalog = value.toCatalog := by
  cases value with
  | mapping entries =>
      have hnode := toNode_untagged 0 (mapping entries)
      rw [untagged] at hnode ⊢
      rw [toCatalog, toCatalog, hnode]
  | sequence items =>
      rw [untagged]
      rfl
  | tagged tag value => cases h
  | _ => rw [untagged]

/-- At every depth a value becomes the same node with its tags and without them, or is refused for
the same reason. A document with a tag on its root is an empty catalog, whatever is below; any other
one gives the catalog that it gives without tags. -/
theorem toCatalog_eq_untagged_iff (value : Yaml) :
    (∀ depth, value.toNode depth = value.untagged.toNode depth) ∧
    value.toCatalog = (if value.isTagged then .ok .empty else value.untagged.toCatalog) ∧
    (value.toCatalog = value.untagged.toCatalog ↔
      value.isTagged = false ∨ value.untagged.toCatalog = .ok .empty) := by
  have hcatalog :
      value.toCatalog = if value.isTagged then .ok .empty else value.untagged.toCatalog := by
    cases htagged : value.isTagged with
    | false => exact (toCatalog_untagged_of_not_isTagged htagged).symm
    | true =>
        cases value with
        | tagged tag value => rfl
        | _ => cases htagged
  refine ⟨fun depth => (toNode_untagged depth value).symm, hcatalog, ?_⟩
  rw [hcatalog]
  cases value.isTagged with
  | false => simp
  | true => simp [eq_comm]

/-- A tag on the root loses the message below; the tags on its key and on its text do nothing. -/
theorem toCatalog_tagged_root :
    let value := tagged "app" (mapping [(tagged "key" (string "a"), tagged "text" (string "b"))])
    value.untagged = mapping [(string "a", string "b")] ∧
    value.toNode 0 = value.untagged.toNode 0 ∧
    value.toCatalog = .ok .empty ∧
    value.untagged.toCatalog = .ok (.ofList [("a", .text "b")]) ∧
    value.toCatalog ≠ value.untagged.toCatalog := by
  intro value
  obtain ⟨hnode, -, hcatalog⟩ := toCatalog_eq_untagged_iff value
  have huntagged : value.untagged.toCatalog = .ok (.ofList [("a", .text "b")]) := rfl
  refine ⟨rfl, hnode 0, rfl, huntagged, fun heq => ?_⟩
  rcases hcatalog.mp heq with htagged | hempty
  · cases htagged
  · cases huntagged.symm.trans hempty

end Phrasebook.Document.Yaml
