import Phrasebook.Document.Conversion

/-!
# JSON values

The values of JSON documents and the catalogs they hold.
-/

namespace Phrasebook.Document

open Number

/-- A JSON value. -/
inductive Json where
  | null
  | bool (b : Bool)
  | number (n : Numeral)
  | string (s : String)
  | array (items : List Json)
  | object (members : List (String × Json))

namespace Json

/-- In every object of a value the keys are distinct. -/
inductive HasDistinctKeys : Json → Prop where
  | null : HasDistinctKeys null
  | bool (b : Bool) : HasDistinctKeys (bool b)
  | number (n : Numeral) : HasDistinctKeys (number n)
  | string (s : String) : HasDistinctKeys (string s)
  | array {items : List Json} : (∀ item ∈ items, HasDistinctKeys item) →
      HasDistinctKeys (array items)
  | object {members : Entries Json} : members.keys.Nodup →
      (∀ member ∈ members, HasDistinctKeys member.2) → HasDistinctKeys (object members)

end Json

/-- A value that is read. No object in it has a key twice. -/
structure JsonDocument where
  value : Json
  distinct : value.HasDistinctKeys

namespace JsonDocument

def null : JsonDocument := ⟨Json.null, .null⟩

def bool (b : Bool) : JsonDocument := ⟨Json.bool b, .bool b⟩

def number (n : Numeral) : JsonDocument := ⟨Json.number n, .number n⟩

def string (s : String) : JsonDocument := ⟨Json.string s, .string s⟩

def array (items : List JsonDocument) : JsonDocument :=
  ⟨Json.array (items.map value), .array (List.forall_mem_map.mpr fun item _ => item.distinct)⟩

theorem distinct_of_mem_setAll {members : List (String × JsonDocument)} {member : String × Json}
    (h : member ∈ Entries.setAll [] (members.map fun (key, item) => (key, item.value))) :
    member.2.HasDistinctKeys := by
  have hmem := (Entries.mem_of_mem_setAll h).resolve_left List.not_mem_nil
  obtain ⟨⟨key, item⟩, -, rfl⟩ := List.mem_map.mp hmem
  exact item.distinct

/-- Of repeated keys the last value counts, in the place of the first. -/
def object (members : List (String × JsonDocument)) : JsonDocument :=
  ⟨Json.object (Entries.setAll [] (members.map fun (key, item) => (key, item.value))),
    .object (Entries.nodup_keys_setAll _ Entries.nodup_keys_nil)
      fun _ hmem => distinct_of_mem_setAll hmem⟩

end JsonDocument

namespace Json

def layout : Layout where
  tie := .toEven
  positional := fun exponent => -5 ≤ exponent && exponent ≤ 15
  keepsPoint := true
  exponentPlus := "+"
  infinity := "inf"
  negativeInfinity := "-inf"
  nan := "NaN"

mutual

/-- The node a value becomes under a number of groups. -/
def toNode (depth : Nat) (value : Json) : Converted :=
  checkDepth depth <|
    match value with
    | null => .ok none
    | bool b => .ok (some (.text (boolText b)))
    | number n => .ok (some (.text (n.render layout)))
    | string s => .ok (some (.text s))
    | array items => itemNodes depth 0 [] items
    | object members => memberNodes depth [] members

/-- Items become entries under their positions. -/
def itemNodes (depth index : Nat) (done : Entries Node) : List Json → Converted
  | [] => .ok (some (.group done))
  | item :: rest =>
    match toNode (depth + 1) item with
    | .error e => .error e
    | .ok node => itemNodes depth (index + 1) (place done (toString index) node) rest

/-- Members become entries under their keys. -/
def memberNodes (depth : Nat) (done : Entries Node) : List (String × Json) → Converted
  | [] => .ok (some (.group done))
  | (key, value) :: rest =>
    match toNode (depth + 1) value with
    | .error e => .error e
    | .ok node => memberNodes depth (place done key node) rest

end

/-- The catalog of a document. A root that is no object holds no messages. -/
def toCatalog (value : Json) : Except ConversionError Catalog :=
  match value with
  | object members => rootCatalog (toNode 0 (object members))
  | _ => .ok .empty

end Json

end Phrasebook.Document
