import Phrasebook.Number.Binary64

/-!
# Decimals in text

Decimal digits, the numbers written with them, and the two spellings of a number that
arguments and documents share: an integer of 64 bits, and a number of 64 bits with an
optional point and exponent, rounded to nearest.
-/

namespace Phrasebook.Number

def digitValue (c : Char) : Nat := c.toNat - '0'.toNat

/-- The natural number that a list of digits denotes in a base. -/
def ofDigits (base : Nat) (value : Char → Nat) (ds : List Char) : Nat :=
  ds.foldl (fun n d => base * n + value d) 0

def ofDecimalDigits (ds : List Char) : Nat := ofDigits 10 digitValue ds

/-- The leading decimal digits of a text, and what follows them. -/
def spanDigits (s : List Char) : List Char × List Char :=
  (s.takeWhile Char.isDigit, s.dropWhile Char.isDigit)

/-- The magnitude `coefficient * 10 ^ exponent`. -/
structure Decimal where
  coefficient : Nat
  exponent : Int
  deriving DecidableEq, Repr

namespace Decimal

/-- The decimal of the digits before and after a point, times a power of ten. -/
def ofParts (whole fraction : List Char) (exponent : Int) : Decimal :=
  ⟨ofDecimalDigits (whole ++ fraction), exponent - fraction.length⟩

/-- Round to a magnitude with the given rounding of quotients. Exponents that put a decimal far
outside every grid in use are settled without the power of ten. -/
def roundWith (round : Nat → Nat → Magnitude) (d : Decimal) : Magnitude :=
  if d.coefficient = 0 then .zero
  else if 400 < d.exponent then .infinity
  else if 0 ≤ d.exponent then round (d.coefficient * Nat.pow 10 d.exponent.toNat) 1
  else if d.exponent + (d.coefficient.log2 / 3 + 1 : Nat) < -400 then .zero
  else round d.coefficient (Nat.pow 10 (-d.exponent).toNat)

def toMagnitude : Decimal → Magnitude := roundWith .ofRatio

end Decimal

/-- A leading sign: whether it is a minus, and the rest. -/
def takeSign : List Char → Bool × List Char
  | '-' :: rest => (true, rest)
  | '+' :: rest => (false, rest)
  | s => (false, s)

/-- An exponent: a sign and at least one digit, to the end of the text. -/
def readExponent (s : List Char) : Option Int :=
  let (negative, ds) := takeSign s
  if ds.isEmpty || !ds.all Char.isDigit then none
  else some (if negative then -(ofDecimalDigits ds) else ofDecimalDigits ds)

/-- A decimal with an optional point and exponent; a digit must stand on one side of the point. -/
def readDecimal (s : List Char) : Option Decimal :=
  let (whole, rest) := spanDigits s
  let (fraction, rest) :=
    match rest with
    | '.' :: rest => spanDigits rest
    | rest => ([], rest)
  if whole.isEmpty && fraction.isEmpty then none
  else
    match rest with
    | [] => some (.ofParts whole fraction 0)
    | c :: rest =>
      if c == 'e' || c == 'E' then (readExponent rest).map (.ofParts whole fraction ·) else none

/-- A number without its sign, rounded with the given rounding: a decimal, or one of the words
for infinity in any letter case. -/
def readMagnitude (round : Nat → Nat → Magnitude) (s : List Char) : Option Magnitude :=
  let word := s.map Char.toLower
  if word = "inf".toList || word = "infinity".toList then some .infinity
  else (readDecimal s).map (Decimal.roundWith round)

/-- A number with an optional sign, or the word for the undefined value. -/
def readWith (round : Nat → Nat → Magnitude) (s : List Char) : Option Binary64 :=
  let (negative, rest) := takeSign s
  if rest.map Char.toLower = "nan".toList then some .nan
  else (readMagnitude round rest).map (.signed negative)

def Binary64.read (s : List Char) : Option Binary64 := readWith .ofRatio s

/-- A number of 32 bits, correctly rounded, as one of 64 bits. -/
def Binary64.readNarrow (s : List Char) : Option Binary64 := readWith .ofRatioNarrow s

/-- An integer in decimal digits with an optional sign. -/
def readInt (s : List Char) : Option Int :=
  let (negative, ds) := takeSign s
  if ds.isEmpty || !ds.all Char.isDigit then none
  else some (if negative then -(ofDecimalDigits ds) else ofDecimalDigits ds)

/-- Whether an integer fits in 64 bits. -/
def fitsInt64 (n : Int) : Bool :=
  Int64.minValue.toInt ≤ n && n ≤ Int64.maxValue.toInt

/-- An integer of 64 bits; one out of range is none. -/
def readInt64 (s : List Char) : Option Int64 :=
  (readInt s).bind fun n => if fitsInt64 n then some (Int64.ofInt n) else none

/-- Distinct natural numbers have distinct texts. -/
theorem eq_of_toString_eq {m n : Nat} (h : toString m = toString n) : m = n := by
  have hdigits : Nat.toDigits 10 m = Nat.toDigits 10 n := by
    simpa using congrArg String.toList h
  calc m = Nat.ofDigitChars 10 (Nat.toDigits 10 m) 0 := Nat.ofDigitChars_ten_toDigits.symm
    _ = Nat.ofDigitChars 10 (Nat.toDigits 10 n) 0 := by rw [hdigits]
    _ = n := Nat.ofDigitChars_ten_toDigits

theorem takeWhile_append_spanDigits (s : List Char) :
    (spanDigits s).1 ++ (spanDigits s).2 = s :=
  List.takeWhile_append_dropWhile

theorem isDigit_of_mem_spanDigits {s : List Char} {c : Char} (h : c ∈ (spanDigits s).1) :
    c.isDigit = true :=
  List.all_eq_true.mp List.all_takeWhile c h

end Phrasebook.Number
