import Phrasebook.Number.Grid

/-!
# Binary floating-point numbers

Numbers of 64 bits: a sign with a magnitude on the grid of 53 digits and steps of
`2 ^ -1074`, the magnitude `infinity` above all of them, and one undefined value.
Zero has two signs, which compare as equal and print differently.
-/

namespace Phrasebook.Number

/-- Significant binary digits of a magnitude. -/
def precision : Nat := 53

/-- The code after that of the largest finite magnitude. -/
def infinityCode : Nat := 0x7FF0000000000000

/-- How many steps make one: a power of two. -/
def stepsPerUnit : Nat := Nat.pow 2 1074

/-- A magnitude, by its position among all magnitudes. -/
structure Magnitude where
  code : Nat
  code_le : code ≤ infinityCode
  deriving DecidableEq

namespace Magnitude

def zero : Magnitude := ⟨0, by decide⟩

def infinity : Magnitude := ⟨infinityCode, Nat.le_refl _⟩

/-- The magnitude in steps; infinity stands where the next finite one would. -/
def steps (m : Magnitude) : Nat := Grid.steps precision m.code

def ofSteps (num den : Nat) : Magnitude :=
  ⟨min (Grid.nearest precision num den) infinityCode, Nat.min_le_right _ _⟩

def ofRatio (num den : Nat) : Magnitude := ofSteps (num * stepsPerUnit) den

/-- The rounded product of two finite magnitudes. -/
def mul (a b : Magnitude) : Magnitude := ofSteps (a.steps * b.steps) stepsPerUnit

/-- The rounded quotient of two finite magnitudes, the second not zero. -/
def div (a b : Magnitude) : Magnitude := ofSteps (a.steps * stepsPerUnit) b.steps

def isInfinite (m : Magnitude) : Bool := m.code == infinityCode

def floor (m : Magnitude) : Nat := m.steps / stepsPerUnit

end Magnitude

inductive Binary64 where
  | nan
  | signed (negative : Bool) (magnitude : Magnitude)
  deriving DecidableEq

namespace Binary64

def infinity : Binary64 := .signed false .infinity

def negativeInfinity : Binary64 := .signed true .infinity

def zero : Binary64 := .signed false .zero

def ofInt (n : Int) : Binary64 := .signed (n < 0) (.ofRatio n.natAbs 1)

def isNaN : Binary64 → Bool
  | .nan => true
  | .signed .. => false

/-- Neither undefined nor infinite. -/
def isFinite : Binary64 → Bool
  | .nan => false
  | .signed _ m => !m.isInfinite

/-- A position on the number line, the same for both zeros. -/
def position : Binary64 → Option Int
  | .nan => none
  | .signed negative m => some (if negative then -m.code else m.code)

/-- Whether two positions are known and in a relation. -/
def compare (r : Int → Int → Bool) (x y : Binary64) : Bool :=
  match x.position, y.position with
  | some a, some b => r a b
  | _, _ => false

/-- Numeric equality: the undefined value equals nothing. -/
def equals : Binary64 → Binary64 → Bool := compare fun a b => a == b

def less : Binary64 → Binary64 → Bool := compare fun a b => a < b

def lessOrEqual : Binary64 → Binary64 → Bool := compare fun a b => a ≤ b

/-- Bring an integer into the range of 64 bits: what lies outside goes to the nearer end. -/
def clamp (n : Int) : Int64 :=
  Int64.ofInt (max Int64.minValue.toInt (min Int64.maxValue.toInt n))

/-- Truncate toward zero; numbers out of range go to the nearer end and the undefined value
to zero. -/
def truncate : Binary64 → Int64
  | .nan => 0
  | .signed negative m => clamp (if negative then -m.floor else m.floor)

def bits : Binary64 → Nat
  | .nan => 0x7FF8000000000000
  | .signed negative m => (if negative then Nat.pow 2 63 else 0) + m.code

theorem equals_nan (x : Binary64) : x.equals .nan = false := by
  cases x <;> rfl

end Binary64

/-! ## Numbers of 32 bits -/

/-- The code after that of the largest finite magnitude of 32 bits. -/
def narrowInfinityCode : Nat := 0x7F800000

/-- Round `num / den` to 24 significant digits and steps of `2 ^ -149`. The result is exact as
a magnitude of 64 bits. -/
def Magnitude.ofRatioNarrow (num den : Nat) : Magnitude :=
  let code := Grid.nearest 24 (num * Nat.pow 2 149) den
  if narrowInfinityCode ≤ code then .infinity else .ofSteps (Grid.steps 24 code * Nat.pow 2 925) 1

end Phrasebook.Number
