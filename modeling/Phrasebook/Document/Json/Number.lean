import Phrasebook.Document.Conversion

/-!
# Numbers of JSON documents

An integer that fits in 64 bits is kept as it is. Any other number is made from a
significand of at most 64 bits, further digits being dropped, by one rounded
multiplication or division by a power of ten; only very small numbers take more than
one division. A number above the finite ones is refused.
-/

namespace Phrasebook.Document.Json

open Number

def maxSignificand : Nat := Nat.pow 2 64 - 1

/-- Take digits while the significand has room for them, and count them. -/
def absorb (significand : Nat) : List Char → Nat × Nat
  | [] => (significand, 0)
  | d :: ds =>
    let next := 10 * significand + digitValue d
    if maxSignificand < next then (significand, 0)
    else
      let (final, count) := absorb next ds
      (final, count + 1)

/-- The greatest power of ten that one step divides by. -/
def maxPower : Nat := 308

def powerOfTen (n : Nat) : Magnitude := .ofRatio (Nat.pow 10 n) 1

/-- Divide by a power of ten, in steps if it is a large one. -/
def scaleDown (m : Magnitude) (exponent : Nat) : Magnitude :=
  if exponent ≤ maxPower then m.div (powerOfTen exponent)
  else if m.code = 0 then m
  else scaleDown (m.div (powerOfTen maxPower)) (exponent - maxPower)
termination_by exponent
decreasing_by simp only [maxPower] at *; omega

/-- A significand times a power of ten; none if that is not finite. -/
def scale (significand : Nat) (exponent : Int) : Option Magnitude :=
  let m := Magnitude.ofRatio significand 1
  if exponent < 0 then some (scaleDown m exponent.natAbs)
  else if m.code = 0 then some m
  else if maxPower < exponent then none
  else
    let scaled := m.mul (powerOfTen exponent.toNat)
    if scaled.isInfinite then none else some scaled

def floatNumeral (negative : Bool) (significand : Nat) (exponent : Int) : Option Numeral :=
  (scale significand exponent).map fun m => .float (.signed negative m)

/-- A number without a point and an exponent, `dropped` of whose digits were left out. -/
def wholeNumeral (negative : Bool) (significand dropped : Nat) : Option Numeral :=
  if dropped = 0 ∧ ¬negative then some (.int significand)
  else if dropped = 0 ∧ 0 < significand ∧ significand ≤ Nat.pow 2 63 then some (.int (-significand))
  else floatNumeral negative significand dropped

/-- An optional exponent: a letter, a sign and digits. A letter without digits is an error. -/
def exponent? : List Char → Option (Option Int × List Char)
  | [] => some (none, [])
  | c :: rest =>
    if c == 'e' || c == 'E' then
      let (negative, rest) := takeSign rest
      let (digits, rest) := spanDigits rest
      if digits.isEmpty then none
      else
        let value := ofDecimalDigits digits
        some (some (if negative then -value else value), rest)
    else some (none, c :: rest)

/-- An optional fraction: a point and digits. A point without digits is an error. -/
def fraction? : List Char → Option (Option (List Char) × List Char)
  | '.' :: rest =>
    let (digits, rest) := spanDigits rest
    if digits.isEmpty then none else some (some digits, rest)
  | rest => some (none, rest)

/-- The digits before the point: a zero alone, or digits that start with another. -/
def whole? (s : List Char) : Option (List Char × List Char) :=
  match spanDigits s with
  | ([], _) => none
  | (['0'], rest) => some (['0'], rest)
  | ('0' :: _, _) => none
  | (digits, rest) => some (digits, rest)

def number? (s : List Char) : Option (Numeral × List Char) := do
  let (negative, s) := match s with
    | '-' :: rest => (true, rest)
    | rest => (false, rest)
  let (whole, s) ← whole? s
  let (fraction, s) ← fraction? s
  let (exponent, s) ← exponent? s
  let (significand, kept) := absorb 0 whole
  let dropped := whole.length - kept
  let numeral ← match fraction, exponent with
    | none, none => wholeNumeral negative significand dropped
    | _, _ =>
      let (significand, kept) := absorb significand (fraction.getD [])
      floatNumeral negative significand (exponent.getD 0 + dropped - kept)
  return (numeral, s)

end Phrasebook.Document.Json
