import Phrasebook.Document.Toml.Reader
import Phrasebook.Settings

/-!
# Reading settings

Settings are a TOML document with three sections. What it does not say has a default, and
what it says beyond that is passed over. A section can also be an array, which gives its
settings in order, or a date, which gives none.
-/

namespace Phrasebook.Settings

open Document

/-- Finds a setting of a section by its name and its position. -/
abbrev Section := String → Nat → Option Toml

def section? : Toml → Option Section
  | .table entries => some fun name _ => Entries.get? name entries
  | .array items => some fun _ position => items[position]?
  | .moment => some fun _ _ => none
  | _ => none

/-- A setting that may be left out; none if it has a wrong form. -/
def setting? {α : Type} (given : Section) (name : String) (position : Nat)
    (read : Toml → Option α) (otherwise : α) : Option α :=
  match given name position with
  | none => some otherwise
  | some value => read value

def text? : Toml → Option String
  | .string s => some s
  | _ => none

def truth? : Toml → Option Bool
  | .bool b => some b
  | _ => none

def count? : Toml → Option Nat
  | .int n => if n < 0 then none else some n.toNat
  | _ => none

def texts? : Toml → Option (List String)
  | .array items => items.mapM text?
  | _ => none

def readTranslator? (s : Settings) (value : Toml) : Option Settings := do
  let given ← section? value
  let locale ← setting? given "default_locale" 0 text? s.locale
  let placeholderStyle ← setting? given "wrapper" 1 text? s.placeholderStyle
  return { s with locale, placeholderStyle }

def readCatalog? (s : Settings) (value : Toml) : Option Settings := do
  let given ← section? value
  let directories ← setting? given "dirs" 0 texts? s.directories
  let ext ← setting? given "extension" 1 text? s.ext
  return { s with directories, ext }

def readCache? (s : Settings) (value : Toml) : Option Settings := do
  let given ← section? value
  let enabled ← setting? given "enabled" 0 truth? s.cache.enabled
  let capacity ← setting? given "capacity" 1 count? s.cache.capacity
  let keyStart ← setting? given "prefix" 2 text? s.cache.keyStart
  let timeToLive ← setting? given "ttl_secs" 3 (fun value => (count? value).map some)
    s.cache.timeToLive
  return { s with cache := ⟨enabled, capacity, keyStart, timeToLive⟩ }

def addSection? (entries : Entries Toml) (name : String)
    (read : Settings → Toml → Option Settings) (s : Settings) : Option Settings :=
  match entries.get? name with
  | none => some s
  | some value => read s value

def parse (text : String) : Option Settings := do
  let entries ← Toml.read text.toList
  let s ← addSection? entries "translator" readTranslator? .default
  let s ← addSection? entries "catalog" readCatalog? s
  addSection? entries "cache" readCache? s

def fileName : String := "glossa.toml"

/-- Read settings from a file, or from the file with the usual name in a directory. -/
def load (files : Files) (path : String) : Except SettingsError Settings :=
  let path := if (files path).isDirectory then Files.Path.join path fileName else path
  match (files path).text? with
  | none => .error (.unreadable path)
  | some text =>
    match parse text with
    | none => .error (.malformed path)
    | some s => .ok s

/-- Read settings from a path. Without one they come from the file with the usual name in the
working directory, and if there is none they are the default ones. -/
def find (files : Files) : Option String → Except SettingsError Settings
  | some path => load files path
  | none => if (files fileName).exists then load files fileName else .ok .default

end Phrasebook.Settings
