import Phrasebook.Cache
import Phrasebook.Document.Json.Reader
import Phrasebook.Document.Yaml.Reader
import Phrasebook.Files
import Phrasebook.Files.Path

/-!
# Loaders

A loader gives the catalog of a domain in a locale. What does not exist is an empty
catalog; what exists and cannot be used is an error. Loaders can be layered, and a
cache can be put before one.
-/

namespace Phrasebook

inductive LoadError where
  | unreadable (path : String)
  | yaml (path : String)
  | json (path : String)
  | invalid (path reason : String)
  deriving DecidableEq

/-- The message of a catalog that can be read and has no usable shape. -/
def LoadError.invalidMessage (path reason : String) : String :=
  "invalid catalog " ++ path ++ ": " ++ reason

/-- Gives the catalog of a domain in a locale and may change a state. -/
abbrev Loader (σ : Type) := String → String → σ → Except LoadError Catalog × σ

/-! ## Files -/

/-- A directory of catalogs: domains are directories in it, locales are files. -/
structure CatalogDirectory where
  directory : String
  ext : String

namespace CatalogDirectory

def defaultExtension : String := ".yaml"

/-- An extension starts with a point unless it is empty. -/
def normalizeExtension (ext : String) : String :=
  if ext = "" ∨ ext.toList.head? = some '.' then ext else "." ++ ext

def ofExtension (directory ext : String) : CatalogDirectory :=
  ⟨directory, normalizeExtension ext⟩

def path (d : CatalogDirectory) (domain locale : String) : String :=
  Files.Path.join (Files.Path.join d.directory domain) (locale ++ d.ext)

def converted (path : String) :
    Except Document.ConversionError Catalog → Except LoadError Catalog
  | .ok c => .ok c
  | .error e => .error (.invalid path e.message)

/-- The catalog that a text holds. The extension says in which format it is written. -/
def parse (ext path text : String) : Except LoadError Catalog :=
  if ext = ".json" then
    match Document.Json.read text.toList with
    | none => .error (.json path)
    | some document => converted path document.value.toCatalog
  else if ext = ".yaml" ∨ ext = ".yml" then
    match Document.Yaml.read text.toList with
    | none => .error (.yaml path)
    | some document => converted path document.toCatalog
  else .error (.invalid path ("unsupported catalog extension \x60" ++ ext ++ "\x60"))

def read (files : Files) (ext path : String) : Except LoadError Catalog :=
  match files path with
  | .missing | .denied => .ok .empty
  | found =>
    match found.text? with
    | none => .error (.unreadable path)
    | some text => parse ext path text

def load (files : Files) (d : CatalogDirectory) (domain locale : String) :
    Except LoadError Catalog :=
  read files d.ext (d.path domain locale)

end CatalogDirectory

namespace Loader

variable {σ : Type}

def ofDirectory (files : Files) (d : CatalogDirectory) : Loader σ :=
  fun domain locale state => (d.load files domain locale, state)

def ofCatalogs (catalogs : List ((String × String) × Catalog)) : Loader σ :=
  fun domain locale state => (.ok ((catalogs.lookup (domain, locale)).getD .empty), state)

def failing (reason : String) : Loader σ :=
  fun _ _ state => (.error (.invalid "broken" reason), state)

/-- Put what each loader gives over a catalog. Loaders that fail are skipped. -/
def overlayAll (domain locale : String) :
    List (Loader σ) → Catalog → σ → Catalog × σ
  | [], c, state => (c, state)
  | loader :: rest, c, state =>
    match loader domain locale state with
    | (.ok upper, state) => overlayAll domain locale rest (c.overlay upper) state
    | (.error _, state) => overlayAll domain locale rest c state

/-- Layers of loaders: the top entries of later ones replace those of earlier ones. -/
def layered (loaders : List (Loader σ)) : Loader σ :=
  fun domain locale state =>
    let (c, state) := overlayAll domain locale loaders .empty state
    (.ok c, state)

def cacheKey (start domain locale : String) : String := start ++ domain ++ "_" ++ locale

/-- Put a cache before a loader. An empty catalog in the cache counts as none, a failing cache
is passed over, and errors of the loader are not kept. -/
def cached (store : CacheBackend σ) (start : String) (timeToLive : Option Nat)
    (loader : Loader σ) : Loader σ :=
  fun domain locale state =>
    let key := cacheKey start domain locale
    let load (state : σ) : Except LoadError Catalog × σ :=
      match loader domain locale state with
      | (.error e, state) => (.error e, state)
      | (.ok c, state) => (.ok c, (store.set key c timeToLive state).2)
    match store.get key state with
    | (.ok (some c), state) => if c.isEmpty then load state else (.ok c, state)
    | (_, state) => load state

end Loader

end Phrasebook
