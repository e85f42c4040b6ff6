/-!
# Layers

Distinct things in the order in which they were first added. There is always a lowest one.
-/

namespace Phrasebook

/-- Things laid over each other. -/
structure Layers (α : Type) where
  lowest : α
  others : List α

namespace Layers

variable {α : Type}

def single (a : α) : Layers α := ⟨a, []⟩

/-- The layers from the lowest up. -/
def toList (l : Layers α) : List α := l.lowest :: l.others

def length (l : Layers α) : Nat := l.toList.length

/-- Add a layer on top, unless it is there already. -/
def add [DecidableEq α] (l : Layers α) (a : α) : Layers α :=
  if a ∈ l.toList then l else ⟨l.lowest, l.others ++ [a]⟩

theorem toList_add_of_mem [DecidableEq α] {l : Layers α} {a : α} (h : a ∈ l.toList) :
    (l.add a).toList = l.toList := by
  rw [add, if_pos h]

theorem toList_add_of_not_mem [DecidableEq α] {l : Layers α} {a : α} (h : a ∉ l.toList) :
    (l.add a).toList = l.toList ++ [a] := by
  rw [add, if_neg h]
  rfl

end Layers

end Phrasebook
