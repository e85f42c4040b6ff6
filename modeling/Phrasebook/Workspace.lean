import Phrasebook.Files.Tree
import Phrasebook.Layers
import Phrasebook.Settings
import Phrasebook.Snapshots.Threads
import Phrasebook.Workspace.Registry

/-!
# Workspaces

A workspace holds files and named loaders, caches, providers, translators and settings, and
records how those with a name are called. Things refer to each other, so that what changes
one of them is seen through all others.
-/

namespace Phrasebook

open Number

/-- A loader that is made of other things in a workspace. -/
inductive Source where
  | memory (catalogs : List ((String × String) × Catalog))
  | directory (d : CatalogDirectory)
  | failing (reason : String)
  | layered (parts : Layers Nat)
  | cached (inner cache : Nat) (keyStart : String) (timeToLive : Option Nat)

/-- Whether the calls of a loader are recorded: those of loaders made of others are not. -/
def Source.isRecorded : Source → Bool
  | .memory _ | .directory _ | .failing _ => true
  | .layered _ | .cached .. => false

inductive Storage where
  | bounded (cache : Cache)
  | broken

def Storage.isRecorded : Storage → Bool
  | .bounded _ => false
  | .broken => true

/-- Messages loaded from a source. A strategy that is given is recorded when it is asked. -/
structure Provider where
  source : Nat
  strategy : Option Strategy
  snapshots : Snapshots

inductive TextSource where
  | provider (number : Nat)
  | settings (s : Settings) (state : Settings.State)

structure PlacedTranslator where
  translator : Translator
  texts : TextSource

inductive Recorded where
  | load (domain locale : String)
  | read (key : String)
  | write (key : String)
  | question (number : Int64) (locale : String)

structure Workspace where
  files : Files.Tree
  sources : Registry Source
  storages : Registry Storage
  providers : Registry Provider
  translators : Registry PlacedTranslator
  settings : Registry Settings
  recorded : List (String × Recorded)

namespace Workspace

def empty : Workspace := ⟨.empty, .empty, .empty, .empty, .empty, .empty, []⟩

def record (w : Workspace) (name : String) (call : Recorded) : Workspace :=
  { w with recorded := w.recorded ++ [(name, call)] }

/-- Whether the calls of anything with a name are recorded. -/
def isRecorded (w : Workspace) (name : String) : Bool :=
  w.sources.definitions.any (fun (other, source) => other == name && source.isRecorded) ||
    w.storages.definitions.any (fun (other, s) => other == name && s.isRecorded) ||
    w.providers.definitions.any (fun (other, p) => other == name && p.strategy.isSome)

/-- Everything recorded under a name, in order; none if nothing with that name is recorded. -/
def recordedUnder (w : Workspace) (name : String) : Option (List Recorded) :=
  if w.isRecorded name then
    some ((w.recorded.filter fun (other, _) => other == name).map Prod.snd)
  else none

/-! ## Caches -/

def readStorage (number : Nat) (key : String) (w : Workspace) :
    Except CacheError (Option Catalog) × Workspace :=
  match w.storages.entry? number with
  | some (_, .bounded cache) =>
    let (found, cache) := Cache.backend.get key cache
    (found, { w with storages := w.storages.replace number (.bounded cache) })
  | some (name, .broken) => CacheBackend.broken.get key (w.record name (.read key))
  | none => (.ok none, w)

def writeStorage (number : Nat) (key : String) (c : Catalog) (timeToLive : Option Nat)
    (w : Workspace) : Except CacheError Unit × Workspace :=
  match w.storages.entry? number with
  | some (_, .bounded cache) =>
    let (done, cache) := Cache.backend.set key c timeToLive cache
    (done, { w with storages := w.storages.replace number (.bounded cache) })
  | some (name, .broken) => CacheBackend.broken.set key c timeToLive (w.record name (.write key))
  | none => (.ok (), w)

/-- A storage as a cache for loaders. -/
def storage (number : Nat) : CacheBackend Workspace := ⟨readStorage number, writeStorage number⟩

/-! ## Loaders -/

/-- The loader with a number. Loaders go through at most so many others. -/
def loaderWithin : Nat → Nat → Loader Workspace
  | 0, _ => fun _ _ w => (.ok .empty, w)
  | limit + 1, number => fun domain locale w =>
    match w.sources.entry? number with
    | none => (.ok .empty, w)
    | some (name, source) =>
      match source with
      | .memory catalogs =>
        Loader.ofCatalogs catalogs domain locale (w.record name (.load domain locale))
      | .directory d =>
        Loader.ofDirectory w.files.look d domain locale (w.record name (.load domain locale))
      | .failing reason => Loader.failing reason domain locale (w.record name (.load domain locale))
      | .layered parts => Loader.layered (parts.toList.map (loaderWithin limit)) domain locale w
      | .cached inner cache keyStart timeToLive =>
        Loader.cached (storage cache) keyStart timeToLive (loaderWithin limit inner) domain locale w

def loader (number : Nat) : Loader Workspace :=
  fun domain locale w => loaderWithin w.sources.size number domain locale w

/-! ## Providers -/

/-- Record the questions of a selection if the strategy was given. -/
def recordQuestions (w : Workspace) (name : String) (p : Provider)
    (asked : List (Int64 × String)) : Workspace :=
  if p.strategy.isSome then
    asked.foldl (fun w (number, locale) => w.record name (.question number locale)) w
  else w

def setSnapshots (w : Workspace) (number : Nat) (p : Provider) (s : Snapshots) : Workspace :=
  { w with providers := w.providers.replace number { p with snapshots := s } }

def messages (number : Nat) (p : Provider) (domain locale : String) (w : Workspace) :
    Messages × Workspace :=
  let (messages, s, w) := Snapshots.messages (loader p.source) domain locale p.snapshots w
  (messages, w.setSnapshots number p s)

/-- The text that messages have under a key for a number. -/
def select (name : String) (p : Provider) (messages : Messages) (key locale : String)
    (number : Option Binary64) (w : Workspace) : Option String × Workspace :=
  let selection := messages.get key number locale (p.strategy.getD .standard)
  (selection.text, w.recordQuestions name p selection.asked)

def providerLookup (number : Nat) : Lookup Workspace := fun key domain locale count w =>
  match w.providers.entry? number with
  | none => (none, w)
  | some (name, p) =>
    let (messages, w) := w.messages number p domain locale
    w.select name p messages key locale count

/-- Ask for a text once for each of some numbers at the same time. -/
def together (number : Nat) (name : String) (p : Provider) (key domain locale : String)
    (numbers : List Binary64) (w : Workspace) : List (Option String) × Workspace :=
  let (answers, s, w) :=
    Threads.together (loader p.source) numbers.length domain locale p.snapshots w
  (answers.zip numbers).foldl (fun (texts, w) (messages, x) =>
    let (text, w) := w.select name p messages key locale (some x)
    (texts ++ [text], w)) ([], w.setSnapshots number p s)

/-! ## Translators -/

def translate (number : Nat) (t : PlacedTranslator) (m : Message) (locale : Option String)
    (w : Workspace) : String × Workspace :=
  match t.texts with
  | .provider provider => t.translator.translateMessage (providerLookup provider) m locale w
  | .settings s state =>
    let (text, state) := t.translator.translateMessage (s.lookup w.files.look) m locale state
    let t := { t with texts := .settings s state }
    (text, { w with translators := w.translators.replace number t })

end Workspace

end Phrasebook
