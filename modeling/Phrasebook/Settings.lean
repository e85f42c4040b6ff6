import Phrasebook.Document.Toml
import Phrasebook.Loader
import Phrasebook.Translator

/-!
# Settings

What a translator is built from: its locale, its form of placeholders, directories of
catalogs in layers, and a cache before them.
-/

namespace Phrasebook

/-- Whether and how loaded catalogs are cached. -/
structure CacheSettings where
  enabled : Bool
  capacity : Nat
  keyStart : String
  timeToLive : Option Nat
  deriving DecidableEq

structure Settings where
  locale : String
  placeholderStyle : String
  directories : List String
  ext : String
  cache : CacheSettings
  deriving DecidableEq

/-- Why there are no settings, or no translator for them. -/
inductive SettingsError where
  | unreadable (path : String)
  | malformed (path : String)
  | unknownStyle (message : String)
  | noDirectories
  deriving DecidableEq

def SettingsError.message : SettingsError → String
  | unreadable path => "Failed to read " ++ path
  | malformed path => "Failed to parse " ++ path
  | unknownStyle message => message
  | noDirectories => "No catalog directories configured"

namespace Settings

/-- The settings that hold where a document says nothing. -/
def default : Settings where
  locale := "en_US"
  placeholderStyle := "percent"
  directories := ["i18n"]
  ext := CatalogDirectory.defaultExtension
  cache := ⟨false, Cache.defaultCapacity, "", none⟩

/-- Layers of the directories, later ones over earlier ones. -/
def layers (s : Settings) (files : Files) : Loader Cache :=
  .layered (s.directories.map fun directory => .ofDirectory files (.ofExtension directory s.ext))

/-- The loader of the settings. Its state is the cache, which stays as it is when caching is not
enabled. -/
def loader (s : Settings) (files : Files) : Loader Cache :=
  if s.cache.enabled then .cached Cache.backend s.cache.keyStart s.cache.timeToLive (s.layers files)
  else s.layers files

def translator (s : Settings) : Except SettingsError Translator :=
  match PlaceholderStyle.parse s.placeholderStyle with
  | .error message => .error (.unknownStyle message)
  | .ok style =>
    if s.directories.isEmpty then .error .noDirectories
    else .ok (.ofLocale s.locale style.wrapper)

/-- What a translator has loaded and cached. -/
abbrev State := Snapshots × Cache

/-- Nothing loaded and nothing cached. -/
def start (s : Settings) : State := (.empty, .ofCapacity s.cache.capacity)

/-- Finds the texts of the settings' directories. -/
def lookup (s : Settings) (files : Files) : Lookup State := .ofLoader (s.loader files) .standard

end Settings

end Phrasebook
