/-!
# Registries

Things that are defined under names and referred to by number. When a name is defined again
the earlier thing stays where it is used.
-/

namespace Phrasebook

/-- Things with their names, in order of definition. -/
structure Registry (α : Type) where
  definitions : List (String × α)

namespace Registry

variable {α : Type}

def empty : Registry α := ⟨[]⟩

def size (r : Registry α) : Nat := r.definitions.length

def define (r : Registry α) (name : String) (thing : α) : Registry α :=
  ⟨r.definitions ++ [(name, thing)]⟩

/-- The number of the thing that was defined last under a name. -/
def number? (r : Registry α) (name : String) : Option Nat :=
  (r.definitions.zipIdx.reverse.find? fun ((other, _), _) => other == name).map Prod.snd

def entry? (r : Registry α) (number : Nat) : Option (String × α) := r.definitions[number]?

def thing? (r : Registry α) (number : Nat) : Option α := (r.entry? number).map Prod.snd

/-- The thing that was defined last under a name, with its number. -/
def find? (r : Registry α) (name : String) : Option (Nat × α) := do
  let number ← r.number? name
  return (number, ← r.thing? number)

def replace (r : Registry α) (number : Nat) (thing : α) : Registry α :=
  ⟨r.definitions.modify number fun (name, _) => (name, thing)⟩

end Registry

end Phrasebook
