import Phrasebook.Catalog
import Phrasebook.Number.Shortest

/-!
# From documents to catalogs

What all kinds of documents share on their way to a catalog: the numbers they can
hold, the limit on nesting, and the ways in which a well-formed document can still be
no catalog.
-/

namespace Phrasebook.Document

open Number

inductive Numeral where
  | int (n : Int)
  | float (x : Binary64)
  deriving DecidableEq

def Numeral.render (layout : Layout) : Numeral → String
  | int n => toString n
  | float x => layout.render x

def boolText (b : Bool) : String := if b then "true" else "false"

/-- How many groups may enclose a message. -/
def maxDepth : Nat := 32

/-- Why a document is no catalog. -/
inductive ConversionError where
  | tooDeep
  | keyNotScalar
  deriving DecidableEq

def ConversionError.message : ConversionError → String
  | tooDeep => "catalog nested too deeply (max " ++ toString maxDepth ++ " levels)"
  | keyNotScalar => "yaml keys must be scalars"

/-- The result of converting a value: nothing for a null. -/
abbrev Converted := Except ConversionError (Option Node)

/-- Refuse what lies too deep. -/
def checkDepth (depth : Nat) (rest : Converted) : Converted :=
  if maxDepth < depth then .error .tooDeep else rest

/-- Put a converted value under its key, if it is something. -/
def place (entries : Entries Node) (key : String) : Option Node → Entries Node
  | none => entries
  | some node => entries.set key node

def rootCatalog : Converted → Except ConversionError Catalog
  | .error e => .error e
  | .ok (some (.group entries)) => .ok (.ofList entries)
  | .ok _ => .ok .empty

end Phrasebook.Document
