import Phrasebook.Number.Decimal

/-!
# Shortest decimals

The decimal with the fewest digits that rounds to a given magnitude, the nearest one
where several have that many digits, and the ways in which such a decimal is laid out
as text.
-/

namespace Phrasebook.Number

/-- Where two shortest decimals are equally near. -/
inductive Tie where
  | up
  | toEven
  deriving DecidableEq

namespace Shortest

/-- No shortest decimal of a magnitude has an exponent below minus this. -/
def offset : Nat := 342

/-- Whether `n * 10 ^ (exponent - offset)` rounds to the magnitude with a code: it lies between
the middles to the neighbours, and on a middle only if the code is even. -/
def readsBack (code n exponent : Nat) : Bool :=
  let point := n * Nat.pow 10 exponent * stepsPerUnit * 2
  let here := Grid.steps precision code
  let low := (Grid.steps precision (code - 1) + here) * Nat.pow 10 offset
  let high := (here + Grid.steps precision (code + 1)) * Nat.pow 10 offset
  if code % 2 = 0 then low ≤ point && point ≤ high else low < point && point < high

/-- The value scaled by `10 ^ offset`, without its fraction. -/
def scaled (code : Nat) : Nat := Grid.steps precision code * Nat.pow 10 offset / stepsPerUnit

/-- Of two neighbours on a decimal grid that read back, the lower one is taken if it is nearer. -/
def lowerIsNearer (tie : Tie) (code n exponent : Nat) : Bool :=
  let value := Grid.steps precision code * Nat.pow 10 offset * 2
  let middle := (2 * n + 1) * Nat.pow 10 exponent * stepsPerUnit
  value < middle || (value == middle && tie == .toEven && n % 2 == 0)

/-- The multiple of `10 ^ (exponent - offset)` that reads back, if there is one. -/
def onGrid? (tie : Tie) (code exponent : Nat) : Option Nat :=
  let n := scaled code / Nat.pow 10 exponent
  match readsBack code n exponent, readsBack code (n + 1) exponent with
  | true, true => some (if lowerIsNearer tie code n exponent then n else n + 1)
  | true, false => some n
  | false, true => some (n + 1)
  | false, false => none

/-- Search the decimal grids from a coarse one down. -/
def search (tie : Tie) (code : Nat) : Nat → Decimal
  | 0 => ⟨(onGrid? tie code 0).getD (scaled code), -offset⟩
  | exponent + 1 =>
    match onGrid? tie code (exponent + 1) with
    | some n => ⟨n, (exponent + 1 : Nat) - (offset : Int)⟩
    | none => search tie code exponent

end Shortest

def Magnitude.shortest (tie : Tie) (m : Magnitude) : Decimal :=
  if m.code = 0 then ⟨0, 0⟩
  else Shortest.search tie m.code (Nat.toDigits 10 (Shortest.scaled m.code)).length

structure Layout where
  /-- Which of two equally near shortest decimals is taken. -/
  tie : Tie
  /-- The exponents of the leading digit that are written with a point alone. -/
  positional : Int → Bool
  /-- Whether whole numbers end in a point and a zero. -/
  keepsPoint : Bool
  /-- What stands before the digits of an exponent that is not negative. -/
  exponentPlus : String
  infinity : String
  negativeInfinity : String
  nan : String

namespace Layout

def zeros (n : Nat) : String := String.ofList (List.replicate n '0')

/-- Digits times a power of ten, written without an exponent. -/
def positionalText (layout : Layout) (digits : List Char) (exponent : Int) : String :=
  let point := digits.length + exponent
  if 0 ≤ exponent then
    String.ofList digits ++ zeros exponent.toNat ++ (if layout.keepsPoint then ".0" else "")
  else if 0 < point then
    String.ofList (digits.take point.toNat) ++ "." ++ String.ofList (digits.drop point.toNat)
  else "0." ++ zeros (-point).toNat ++ String.ofList digits

/-- One digit before the point, and the exponent of that digit. -/
def scientificText (layout : Layout) (digits : List Char) (leading : Int) : String :=
  let fraction := if digits.length = 1 then "" else "." ++ String.ofList (digits.drop 1)
  String.ofList (digits.take 1) ++ fraction ++ "e" ++
    (if leading < 0 then "-" else layout.exponentPlus) ++ toString leading.natAbs

def magnitude (layout : Layout) (m : Magnitude) : String :=
  let d := m.shortest layout.tie
  let digits := Nat.toDigits 10 d.coefficient
  let leading := digits.length + d.exponent - 1
  if m.code = 0 || layout.positional leading then layout.positionalText digits d.exponent
  else layout.scientificText digits leading

def render (layout : Layout) : Binary64 → String
  | .nan => layout.nan
  | .signed negative m =>
    if m.isInfinite then (if negative then layout.negativeInfinity else layout.infinity)
    else (if negative then "-" else "") ++ layout.magnitude m

end Layout

/-- Numbers in messages and conditions: never an exponent, and no point in whole numbers. -/
def plainLayout : Layout where
  tie := .up
  positional := fun _ => true
  keepsPoint := false
  exponentPlus := ""
  infinity := "inf"
  negativeInfinity := "-inf"
  nan := "NaN"

def Binary64.plain (x : Binary64) : String := plainLayout.render x

end Phrasebook.Number
