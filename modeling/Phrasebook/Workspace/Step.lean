import Phrasebook.Settings.Reader
import Phrasebook.Workspace

/-!
# Steps in a workspace

What can be done in a workspace by name. A step that names something that is not there has
no result and changes nothing.
-/

namespace Phrasebook.Workspace

open Number

/-! ## Loaders -/

def defineSource (w : Workspace) (name : String) (source : Source) : Workspace :=
  { w with sources := w.sources.define name source }

def put (w : Workspace) (name domain locale : String) (c : Catalog) : Option Workspace :=
  match w.sources.find? name with
  | some (number, .memory catalogs) =>
    let catalogs := ((domain, locale), c) :: catalogs
    some { w with sources := w.sources.replace number (.memory catalogs) }
  | _ => none

def defineLayers (w : Workspace) (name first : String) : Option Workspace :=
  (w.sources.number? first).map fun part => w.defineSource name (.layered (.single part))

/-- Add a loader to layers unless it is there, and count them. -/
def addLayer (w : Workspace) (name layer : String) : Option (Nat × Workspace) :=
  match w.sources.find? name, w.sources.number? layer with
  | some (number, .layered parts), some part =>
    let parts := parts.add part
    some (parts.length, { w with sources := w.sources.replace number (.layered parts) })
  | _, _ => none

/-- Define a loader with a cache before it. -/
def defineCached (w : Workspace) (name inner cache keyStart : String)
    (timeToLive : Option Nat) : Option Workspace := do
  let inner ← w.sources.number? inner
  let cache ← w.storages.number? cache
  return w.defineSource name (.cached inner cache keyStart timeToLive)

def load (w : Workspace) (name domain locale : String) :
    Option (Except LoadError Catalog × Workspace) :=
  (w.sources.number? name).map fun number => loader number domain locale w

/-! ## Caches -/

def defineStorage (w : Workspace) (name : String) (s : Storage) : Workspace :=
  { w with storages := w.storages.define name s }

def cacheGet (w : Workspace) (name key : String) :
    Option (Except CacheError (Option Catalog) × Workspace) :=
  (w.storages.number? name).map fun number => readStorage number key w

def cacheSet (w : Workspace) (name key : String) (c : Catalog) (timeToLive : Option Nat) :
    Option (Except CacheError Unit × Workspace) :=
  (w.storages.number? name).map fun number => writeStorage number key c timeToLive w

def cache? (w : Workspace) (name : String) : Option Cache :=
  match w.storages.find? name with
  | some (_, .bounded cache) => some cache
  | _ => none

/-! ## Providers -/

def defineProvider (w : Workspace) (name loader : String) (strategy : Option Strategy) :
    Option Workspace :=
  (w.sources.number? loader).map fun source =>
    { w with providers := w.providers.define name ⟨source, strategy, .empty⟩ }

def get (w : Workspace) (name key domain locale : String) (number : Option Binary64) :
    Option (Option String × Workspace) :=
  (w.providers.number? name).map fun provider => providerLookup provider key domain locale number w

def getTogether (w : Workspace) (name key domain locale : String) (numbers : List Binary64) :
    Option (List (Option String) × Workspace) :=
  (w.providers.find? name).map fun (number, p) => w.together number name p key domain locale numbers

def isLoaded (w : Workspace) (name domain locale : String) : Option Bool :=
  (w.providers.find? name).map fun (_, p) => p.snapshots.isLoaded domain locale

def domain (w : Workspace) (name domain locale : String) : Option (Messages × Workspace) :=
  (w.providers.find? name).map fun (number, p) => w.messages number p domain locale

/-! ## Translators -/

def placeTranslator (w : Workspace) (name : String) (t : Translator) (texts : TextSource) :
    Workspace :=
  { w with translators := w.translators.define name ⟨t, texts⟩ }

def defineTranslator (w : Workspace) (name provider : String) (t : Translator) :
    Option Workspace :=
  (w.providers.number? provider).map fun number => w.placeTranslator name t (.provider number)

/-- Change the locale of a translator, and tell which one it has then. -/
def setLocale (w : Workspace) (name locale : String) : Option (String × Workspace) :=
  (w.translators.find? name).map fun (number, t) =>
    let translator := t.translator.setLocale locale
    (translator.locale,
      { w with translators := w.translators.replace number { t with translator } })

def translateBy (w : Workspace) (name : String) (m : Message) (locale : Option String) :
    Option (String × Workspace) :=
  (w.translators.find? name).map fun (number, t) => w.translate number t m locale

/-! ## Settings -/

def defineSettings (w : Workspace) (name : String) (s : Settings) : Workspace :=
  { w with settings := w.settings.define name s }

/-- Read settings from a path, or from the usual place. -/
def loadSettings (w : Workspace) (name : String) (path : Option String) :
    Except SettingsError (Settings × Workspace) :=
  (Settings.find w.files.look path).map fun s => (s, w.defineSettings name s)

/-- Define the translator of settings, and tell its locale. -/
def translatorOfSettings (w : Workspace) (name settings : String) :
    Option (Except SettingsError (String × Workspace)) :=
  (w.settings.find? settings).map fun (_, s) =>
    s.translator.map fun t => (t.locale, w.placeTranslator name t (.settings s s.start))

end Phrasebook.Workspace
