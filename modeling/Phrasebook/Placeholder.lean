import Phrasebook.Text.Blank

/-!
# Placeholders

A wrapper turns the name of an argument into the token that stands for it in messages.
-/

namespace Phrasebook

/-- Turns a name into its placeholder token. -/
abbrev Wrapper := String → String

/-- A wrapper that writes fixed texts around the name. -/
def Wrapper.around (before after : String) : Wrapper :=
  fun name => before ++ name ++ after

/-- The built-in conventions. -/
inductive PlaceholderStyle where
  /-- Written `%name%`. -/
  | percent
  /-- Written `:name`. -/
  | colon
  deriving DecidableEq

namespace PlaceholderStyle

def wrapper : PlaceholderStyle → Wrapper
  | percent => .around "%" "%"
  | colon => .around ":" ""

def unknownMessage (name : String) : String :=
  "unknown wrap style `" ++ name ++ "` (expected `percent` or `colon`)"

/-- Read the name of a convention, in any letter case and with blanks around it. A name that is
not known is reported in the form in which it was looked up. -/
def parse (s : String) : Except String PlaceholderStyle :=
  let name := String.ofList ((Text.trim s.toList).map Char.toLower)
  if name = "percent" ∨ name = "symfony" then .ok percent
  else if name = "colon" ∨ name = "laravel" then .ok colon
  else .error (unknownMessage name)

end PlaceholderStyle

end Phrasebook
