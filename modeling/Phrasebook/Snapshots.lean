import Phrasebook.Loader
import Phrasebook.Messages

/-!
# Snapshots

Messages are loaded when they are first asked for and kept from then on, whatever the
loader would give later. A catalog that cannot be loaded counts as an empty one.
-/

namespace Phrasebook

open Number

/-- The messages loaded so far, by domain and locale. -/
structure Snapshots where
  loaded : List ((String × String) × Messages)

namespace Snapshots

variable {σ : Type}

def empty : Snapshots := ⟨[]⟩

/-- The messages of a domain in a locale if they are loaded. -/
def messages? (s : Snapshots) (domain locale : String) : Option Messages :=
  s.loaded.lookup (domain, locale)

def isLoaded (s : Snapshots) (domain locale : String) : Bool := (s.messages? domain locale).isSome

def insert (s : Snapshots) (domain locale : String) (messages : Messages) : Snapshots :=
  ⟨((domain, locale), messages) :: s.loaded⟩

def ofLoad : Except LoadError Catalog → Messages
  | .ok c => .ofCatalog c
  | .error _ => .empty

/-- The messages of a domain in a locale, loaded if they are not yet. -/
def messages (loader : Loader σ) (domain locale : String) (s : Snapshots) (state : σ) :
    Messages × Snapshots × σ :=
  match s.messages? domain locale with
  | some messages => (messages, s, state)
  | none =>
    let (result, state) := loader domain locale state
    let messages := ofLoad result
    (messages, s.insert domain locale messages, state)

def get (loader : Loader σ) (strategy : Strategy) (key domain locale : String)
    (number : Option Binary64) (s : Snapshots) (state : σ) :
    Variants.Selection × Snapshots × σ :=
  let (messages, s, state) := messages loader domain locale s state
  (messages.get key number locale strategy, s, state)

end Snapshots

end Phrasebook
