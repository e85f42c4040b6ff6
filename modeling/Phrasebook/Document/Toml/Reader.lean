import Phrasebook.Document.Toml.Line

/-!
# Reading TOML

The lines of a document build one table. A table can be defined once: by a header, or by
dotted keys; the tables on the way to a header can still get a header of their own.
-/

namespace Phrasebook.Document.Toml

/-- What defined a table. -/
inductive Origin where
  | header
  /-- It lies on the way to a header. -/
  | passed
  | dottedKey
  deriving DecidableEq

/-- What stands under a key while a document is built. -/
inductive Item where
  | value (v : Toml)
  | table (origin : Origin) (entries : List (String × Item))
  /-- The tables of an array, the last one first. -/
  | tables (elements : List (List (String × Item)))

namespace Item

/-- Change the table that a path leads to. Missing tables on the way are made. A path of dotted
keys does not go through tables with a header; a path goes into the last table of an array. -/
def update (dotted : Bool) (change : Origin → Entries Item → Option (Entries Item)) :
    List String → Origin → Entries Item → Option (Entries Item)
  | [], origin, entries => change origin entries
  | key :: path, _, entries =>
    match entries.get? key with
    | none => do
      let origin := if dotted then .dottedKey else .passed
      return entries.set key (.table origin (← update dotted change path origin []))
    | some (.table origin inner) =>
      if dotted && origin == .header then none
      else do return entries.set key (.table origin (← update dotted change path origin inner))
    | some (.tables (last :: others)) => do
      return entries.set key (.tables ((← update dotted change path .header last) :: others))
    | some (.tables []) | some (.value _) => none

/-- Define a table by its header. -/
def openTable (key : String) (_ : Origin) (entries : Entries Item) : Option (Entries Item) :=
  match entries.get? key with
  | none => some (entries.set key (.table .header []))
  | some (.table .passed inner) => some (entries.set key (.table .header inner))
  | some _ => none

/-- Add a table to an array of tables. -/
def addElement (key : String) (_ : Origin) (entries : Entries Item) : Option (Entries Item) :=
  match entries.get? key with
  | none => some (entries.set key (.tables [[]]))
  | some (.tables elements) => some (entries.set key (.tables ([] :: elements)))
  | some _ => none

/-- Put a value under a key that is not taken. -/
def assign (key : String) (value : Toml) (entries : Entries Item) : Option (Entries Item) :=
  if (entries.get? key).isSome then none else some (entries.set key (.value value))

/-- Put a value under the last part of a dotted key. Its other parts must lead to a table made by
dotted keys. -/
def assignDotted (key : String) (value : Toml) (origin : Origin) (entries : Entries Item) :
    Option (Entries Item) :=
  if origin = .dottedKey then assign key value entries else none

/-- Assign inside the table of the last header. -/
def assignAt (path : List String) (key : String) (value : Toml) (_ : Origin)
    (entries : Entries Item) : Option (Entries Item) :=
  if path.isEmpty then assign key value entries
  else update true (assignDotted key value) path .header entries

/-- Build from lines, the path of the last header being known. -/
def ofLines (current : List String) (entries : Entries Item) : List Line → Option (Entries Item)
  | [] => some entries
  | .table path :: rest => do
    let entries ← update false (openTable (path.getLastD "")) path.dropLast .header entries
    ofLines path entries rest
  | .item path :: rest => do
    let entries ← update false (addElement (path.getLastD "")) path.dropLast .header entries
    ofLines path entries rest
  | .assignment path key v :: rest => do
    let entries ← update false (assignAt path key v) current .header entries
    ofLines current entries rest

mutual

def toToml : Item → Toml
  | value v => v
  | table _ entries => .table (toTomls entries)
  | tables elements => .array (elementTomls elements).reverse

def toTomls : List (String × Item) → List (String × Toml)
  | [] => []
  | (key, item) :: rest => (key, item.toToml) :: toTomls rest

def elementTomls : List (List (String × Item)) → List Toml
  | [] => []
  | entries :: rest => .table (toTomls entries) :: elementTomls rest

end

end Item

/-- Read a document: its entries, or none if it is malformed. -/
def read (s : List Char) : Option (Entries Toml) := do
  return Item.toTomls (← Item.ofLines [] [] (← lines? s))

end Phrasebook.Document.Toml
