import Phrasebook.Text.Blank

/-!
# Locales

A locale is a tag of subtags joined by `_`. Catalogs are looked up under the normal
form of a tag, plural rules under the tag without its last subtag.
-/

namespace Phrasebook.Locale

/-- Drop the blanks around a tag and join its subtags with `_`. -/
def normalize (tag : String) : String :=
  String.ofList ((Text.trim tag.toList).map fun c => if c = '-' then '_' else c)

/-- A tag up to its last `_`, or the whole tag if it has none. -/
def dropRegion (tag : List Char) : List Char :=
  if '_' ∈ tag then ((tag.reverse.dropWhile (· ≠ '_')).drop 1).reverse else tag

/-- The tag whose plural rules a locale uses. Brazilian Portuguese has rules of its own. -/
def language (tag : String) : String :=
  if tag = "pt_BR" then tag else String.ofList (dropRegion tag.toList)

end Phrasebook.Locale
