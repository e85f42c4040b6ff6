import Phrasebook.Document.Conversion

/-!
# YAML values

The values of YAML documents and the catalogs they hold. Any value can carry a tag of
its own, which catalogs look through below the root.
-/

namespace Phrasebook.Document

open Number

/-- A YAML value. The keys of a mapping are distinct. -/
inductive Yaml where
  | null
  | bool (b : Bool)
  | number (n : Numeral)
  | string (s : String)
  | sequence (items : List Yaml)
  | mapping (entries : List (Yaml × Yaml))
  | tagged (tag : String) (value : Yaml)

namespace Yaml

def layout : Layout where
  tie := .toEven
  positional := fun exponent => -5 ≤ exponent && exponent ≤ 15
  keepsPoint := true
  exponentPlus := ""
  infinity := ".inf"
  negativeInfinity := "-.inf"
  nan := ".nan"

/-- The text of a scalar other than null. -/
def scalar? : Yaml → Option String
  | string s => some s
  | number n => some (n.render layout)
  | bool b => some (boolText b)
  | tagged _ value => value.scalar?
  | _ => none

mutual

/-- The node a value becomes under a number of groups. -/
def toNode (depth : Nat) (value : Yaml) : Converted :=
  checkDepth depth <|
    match value with
    | null => .ok none
    | mapping entries => entryNodes depth [] entries
    | sequence items => itemNodes depth 0 [] items
    | tagged _ value => toNode depth value
    | bool b => .ok (some (.text (boolText b)))
    | number n => .ok (some (.text (n.render layout)))
    | string s => .ok (some (.text s))

/-- Items become entries under their positions. -/
def itemNodes (depth index : Nat) (done : Entries Node) : List Yaml → Converted
  | [] => .ok (some (.group done))
  | item :: rest =>
    match toNode (depth + 1) item with
    | .error e => .error e
    | .ok node => itemNodes depth (index + 1) (place done (toString index) node) rest

/-- Entries of a mapping become entries under the texts of their keys. -/
def entryNodes (depth : Nat) (done : Entries Node) : List (Yaml × Yaml) → Converted
  | [] => .ok (some (.group done))
  | (key, value) :: rest =>
    match key.scalar? with
    | none => .error .keyNotScalar
    | some key =>
      match toNode (depth + 1) value with
      | .error e => .error e
      | .ok node => entryNodes depth (place done key node) rest

end

/-- The catalog of a document. A root that is no mapping holds no messages. -/
def toCatalog (value : Yaml) : Except ConversionError Catalog :=
  match value with
  | mapping entries => rootCatalog (toNode 0 (mapping entries))
  | _ => .ok .empty

end Yaml

end Phrasebook.Document
