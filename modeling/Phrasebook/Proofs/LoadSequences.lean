import Mathlib.Data.List.Induction
import Phrasebook.Loader

/-!
# Sequences of loads

Catalogs are loaded for one pair of a domain and a locale after the other, and the state of the
loader goes on from load to load.
-/

namespace Phrasebook.Loader

variable {σ ρ : Type}

def loadAll (loader : Loader σ) :
    List (String × String) → σ → List (Except LoadError Catalog) × σ
  | [], state => ([], state)
  | pair :: rest, state =>
    let (result, state) := loader pair.1 pair.2 state
    let (results, state) := loadAll loader rest state
    (result :: results, state)

theorem loadAll_append (loader : Loader σ) (pairs rest : List (String × String)) (state : σ) :
    loader.loadAll (pairs ++ rest) state =
      ((loader.loadAll pairs state).1 ++ (loader.loadAll rest (loader.loadAll pairs state).2).1,
        (loader.loadAll rest (loader.loadAll pairs state).2).2) := by
  induction pairs generalizing state with
  | nil => rfl
  | cons pair pairs ih =>
      rw [List.cons_append, loadAll]
      simp only [ih]
      rfl

theorem loadAll_concat (loader : Loader σ) (pairs : List (String × String))
    (pair : String × String) (state : σ) :
    loader.loadAll (pairs ++ [pair]) state =
      ((loader.loadAll pairs state).1 ++ [(loader pair.1 pair.2 (loader.loadAll pairs state).2).1],
        (loader pair.1 pair.2 (loader.loadAll pairs state).2).2) := by
  rw [loadAll_append]
  rfl

/-- A loader whose state stands beside another one that it does not see. -/
def onRight (loader : Loader σ) : Loader (ρ × σ) := fun domain locale (other, state) =>
  let (result, state) := loader domain locale state
  (result, other, state)

end Phrasebook.Loader
