import Phrasebook.Entries

/-!
# TOML values

The values of TOML documents, as far as settings tell them apart.
-/

namespace Phrasebook.Document

/-- A TOML value. The keys of a table are distinct. -/
inductive Toml where
  | string (s : String)
  | int (n : Int)
  | float
  | bool (b : Bool)
  | moment
  | array (items : List Toml)
  | table (entries : List (String × Toml))

end Phrasebook.Document
