import Phrasebook.Proofs.Runs

/-!
# Sources that fail

A source that fails is the same as one that has nothing. Layers pass over it and messages are
empty without it, so in a run nobody can tell by the answers, or by the calls of any source,
whether failing loads gave an error or an empty catalog.
-/

namespace Phrasebook

variable {α σ : Type}

theorem Catalog.overlay_empty (c : Catalog) : c.overlay .empty = c := rfl

namespace Loader

def orEmpty (loader : Loader σ) : Loader σ := fun domain locale state =>
  match loader domain locale state with
  | (.ok c, state) => (.ok c, state)
  | (.error _, state) => (.ok .empty, state)

def logged (name : α) (loader : Loader σ) : Loader (List (α × String × String) × σ) :=
  fun domain locale (calls, state) =>
    let (result, state) := loader domain locale state
    (result, calls ++ [(name, domain, locale)], state)

theorem overlayAll_orEmpty (domain locale : String) (loaders : List (Loader σ)) (c : Catalog)
    (state : σ) :
    overlayAll domain locale (loaders.map orEmpty) c state =
      overlayAll domain locale loaders c state := by
  induction loaders generalizing c state with
  | nil => rfl
  | cons loader rest ih =>
      rw [List.map_cons, overlayAll, overlayAll, orEmpty]
      cases loader domain locale state with
      | mk result after =>
          cases result with
          | ok upper => exact ih (c.overlay upper) after
          | error e =>
              show overlayAll domain locale (rest.map orEmpty) (c.overlay .empty) after = _
              rw [Catalog.overlay_empty, ih]

theorem layered_orEmpty (loaders : List (Loader σ)) :
    layered (loaders.map orEmpty) = layered loaders := by
  funext domain locale state
  rw [layered, layered, overlayAll_orEmpty]

theorem orEmpty_layered (loaders : List (Loader σ)) :
    (layered loaders).orEmpty = layered loaders := rfl

theorem logged_orEmpty (name : α) (loader : Loader σ) :
    loader.orEmpty.logged name = (loader.logged name).orEmpty := by
  funext domain locale ⟨calls, state⟩
  rw [logged, orEmpty, orEmpty, logged]
  cases loader domain locale state with
  | mk result after => cases result <;> rfl

end Loader

/-! ## Stacks of layers -/

/-- Layers of sources and of other layers, nested in any way. A source may stand in many places. -/
inductive LoaderStack (α : Type) where
  | source (a : α)
  | layered (parts : List (LoaderStack α))

namespace LoaderStack

mutual

def loader (sourceLoader : α → Loader σ) : LoaderStack α → Loader σ
  | .source a => sourceLoader a
  | .layered parts => .layered (loaders sourceLoader parts)

def loaders (sourceLoader : α → Loader σ) : List (LoaderStack α) → List (Loader σ)
  | [] => []
  | part :: rest => loader sourceLoader part :: loaders sourceLoader rest

end

mutual

/-- Wherever sources give empty catalogs in place of errors, the stack does. -/
theorem loader_orEmpty (sourceLoader : α → Loader σ) (stack : LoaderStack α) :
    stack.loader (fun a => (sourceLoader a).orEmpty) = (stack.loader sourceLoader).orEmpty := by
  cases stack with
  | source a => rfl
  | layered parts =>
      rw [loader, loader, loaders_orEmpty sourceLoader parts, Loader.layered_orEmpty,
        Loader.orEmpty_layered]

theorem loaders_orEmpty (sourceLoader : α → Loader σ) (parts : List (LoaderStack α)) :
    loaders (fun a => (sourceLoader a).orEmpty) parts =
      (loaders sourceLoader parts).map Loader.orEmpty := by
  cases parts with
  | nil => rfl
  | cons part rest =>
      rw [loaders, loaders, List.map_cons, loader_orEmpty sourceLoader part,
        loaders_orEmpty sourceLoader rest]

end

end LoaderStack

/-! ## Runs -/

namespace Snapshots

theorem messages_orEmpty (loader : Loader σ) : messages loader.orEmpty = messages loader := by
  funext domain locale s state
  rw [messages, messages, Loader.orEmpty]
  cases s.messages? domain locale with
  | some found => rfl
  | none =>
      cases loader domain locale state with
      | mk result after => cases result <;> rfl

end Snapshots

theorem Lookup.ofLoader_orEmpty (loader : Loader σ) (strategy : Strategy) :
    Lookup.ofLoader loader.orEmpty strategy = Lookup.ofLoader loader strategy := by
  funext key domain locale number ⟨s, state⟩
  rw [ofLoader, ofLoader, Snapshots.get, Snapshots.get, Snapshots.messages_orEmpty]

inductive Request where
  | translate (call : Translator.Call)
  | get (key domain locale : String) (number : Option Number.Binary64)
  | isLoaded (domain locale : String)

inductive Answer where
  | translation (text : String)
  | message (text : Option String)
  | loaded (known : Bool)
  deriving DecidableEq

namespace Translator

def answer (loader : Loader σ) (strategy : Strategy) (t : Translator) :
    Request → Snapshots × σ → Answer × Snapshots × σ
  | .translate call, state =>
    let (text, state) :=
      t.translate (.ofLoader loader strategy) call.id call.arguments call.locale state
    (.translation text, state)
  | .get key domain locale number, state =>
    let (text, state) := Lookup.ofLoader loader strategy key domain locale number state
    (.message text, state)
  | .isLoaded domain locale, state => (.loaded (state.1.isLoaded domain locale), state)

def answerAll (loader : Loader σ) (strategy : Strategy) (t : Translator) :
    List Request → Snapshots × σ → List Answer × Snapshots × σ
  | [], state => ([], state)
  | request :: rest, state =>
    let (first, state) := answer loader strategy t request state
    let (others, state) := answerAll loader strategy t rest state
    (first :: others, state)

theorem answer_orEmpty (loader : Loader σ) (strategy : Strategy) (t : Translator)
    (request : Request) (state : Snapshots × σ) :
    answer loader.orEmpty strategy t request state = answer loader strategy t request state := by
  cases request with
  | translate call => rw [answer, answer, Lookup.ofLoader_orEmpty]
  | get key domain locale number => rw [answer, answer, Lookup.ofLoader_orEmpty]
  | isLoaded domain locale => rfl

theorem answerAll_orEmpty (loader : Loader σ) (strategy : Strategy) (t : Translator)
    (requests : List Request) (state : Snapshots × σ) :
    answerAll loader.orEmpty strategy t requests state =
      answerAll loader strategy t requests state := by
  induction requests generalizing state with
  | nil => rfl
  | cons request rest ih =>
      rw [answerAll, answerAll, answer_orEmpty]
      simp only [ih]

/-- Whether the loads of sources fail or give nothing, a run has the same answers, and every source
is asked for the same things in the same order. -/
theorem answerAll_sources_orEmpty (stack : LoaderStack α) (sourceLoader : α → Loader σ)
    (strategy : Strategy) (t : Translator) (requests : List Request)
    (state : Snapshots × List (α × String × String) × σ) :
    answerAll (stack.loader fun a => (sourceLoader a).orEmpty.logged a) strategy t requests state =
      answerAll (stack.loader fun a => (sourceLoader a).logged a) strategy t requests state := by
  have hstack : (stack.loader fun a => (sourceLoader a).orEmpty.logged a) =
      (stack.loader fun a => (sourceLoader a).logged a).orEmpty := by
    simp only [Loader.logged_orEmpty]
    exact stack.loader_orEmpty fun a => (sourceLoader a).logged a
  rw [hstack, answerAll_orEmpty]

end Translator

end Phrasebook
