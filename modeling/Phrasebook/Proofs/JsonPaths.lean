import Phrasebook.Document.Json
import Phrasebook.Proofs.OverlaidEntries

/-!
# Paths through a document

A path of keys and positions leads to a value of a document. It leads to one value only, since the
keys of an object are distinct.
-/

namespace Phrasebook.Document.Json

/-- The values right below a value: members under their keys, items under their positions. -/
def children : Json → Entries Json
  | array items => items.zipIdx.map fun (item, index) => (toString index, item)
  | object members => members
  | _ => []

def at? : Json → List String → Option Json
  | value, [] => some value
  | value, key :: path => (Entries.get? key value.children).bind fun child => child.at? path

def isGroup : Json → Bool
  | array _ | object _ => true
  | _ => false

def isNull : Json → Bool
  | null => true
  | _ => false

def scalarText? : Json → Option String
  | bool b => some (boolText b)
  | number n => some (n.render layout)
  | string s => some s
  | _ => none

@[simp] theorem at?_nil (value : Json) : value.at? [] = some value := rfl

theorem at?_cons (value : Json) (key : String) (path : List String) :
    value.at? (key :: path) =
      (Entries.get? key value.children).bind fun child => child.at? path := rfl

theorem sizeOf_lt_of_mem_children {value : Json} {child : String × Json}
    (h : child ∈ value.children) : sizeOf child.2 < sizeOf value := by
  cases value with
  | array items =>
      obtain ⟨⟨item, index⟩, hmem, rfl⟩ := List.mem_map.mp h
      have hitem : sizeOf item < sizeOf items :=
        List.sizeOf_lt_of_mem (List.fst_mem_of_mem_zipIdx hmem)
      simp only [array.sizeOf_spec]
      omega
  | object members =>
      obtain ⟨key, value⟩ := child
      have hmember : sizeOf (key, value) < sizeOf members := List.sizeOf_lt_of_mem h
      simp only [object.sizeOf_spec, Prod.mk.sizeOf_spec] at hmember ⊢
      omega
  | _ => cases h

theorem nodup_keys_children_array (items : List Json) :
    (array items).children.keys.Nodup := by
  have hkeys : (array items).children.keys =
      (items.zipIdx.map Prod.snd).map (toString : Nat → String) := by
    rw [children, Entries.keys, List.map_map, List.map_map]
    rfl
  rw [hkeys, List.zipIdx_map_snd]
  exact List.Nodup.map (fun _ _ => Number.eq_of_toString_eq) List.nodup_range'

end Phrasebook.Document.Json

namespace Phrasebook.Document.JsonDocument

open Json

theorem nodup_keys_children (d : JsonDocument) : d.value.children.keys.Nodup := by
  obtain ⟨value, distinct⟩ := d
  cases distinct with
  | array _ => exact nodup_keys_children_array _
  | object hnodup _ => exact hnodup
  | _ => exact Entries.nodup_keys_nil

def child (d : JsonDocument) {child : String × Json} (h : child ∈ d.value.children) :
    JsonDocument where
  value := child.2
  distinct := by
    obtain ⟨value, distinct⟩ := d
    cases distinct with
    | array hitems =>
        obtain ⟨⟨item, index⟩, hitem, rfl⟩ := List.mem_map.mp h
        exact hitems item (List.fst_mem_of_mem_zipIdx hitem)
    | object _ hmembers => exact hmembers child h
    | _ => cases h

theorem induction_on_children {motive : JsonDocument → Prop}
    (h : ∀ d : JsonDocument, (∀ child (hmem : child ∈ d.value.children), motive (d.child hmem)) →
      motive d) (d : JsonDocument) : motive d :=
  h d fun child hmem =>
    have : sizeOf (d.child hmem).value < sizeOf d.value := sizeOf_lt_of_mem_children hmem
    induction_on_children h (d.child hmem)
termination_by sizeOf d.value

end Phrasebook.Document.JsonDocument
