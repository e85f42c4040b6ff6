import Phrasebook.Document.Yaml
import Phrasebook.Document.Yaml.Tag
import Phrasebook.Number.Decimal
import Phrasebook.Text.Hex

/-!
# Values of scalars

What the text of a plain scalar means: nothing, a truth value, a number or a text. A
standard tag asks for one of these.
-/

namespace Phrasebook.Document.Yaml

open Number

def readNull (s : String) : Bool := ["null", "Null", "NULL", "~"].contains s

def readBool (s : String) : Option Bool :=
  if ["true", "True", "TRUE"].contains s then some true
  else if ["false", "False", "FALSE"].contains s then some false
  else none

/-- The value of a digit in a base of at most sixteen. -/
def digitIn? (base : Nat) (c : Char) : Option Nat :=
  (Text.hexDigit? c).filter (· < base)

/-- A natural number in a base; at least one digit and nothing else. -/
def readBase (base : Nat) (digits : List Char) : Option Nat :=
  if digits.isEmpty then none
  else digits.foldl (fun n c => do return base * (← n) + (← digitIn? base c)) (some 0)

/-- Digits after a zero: such a text is no number. -/
def isZeroPadded (s : List Char) : Bool :=
  match (takeSign s).2 with
  | '0' :: c :: rest => (c :: rest).all Char.isDigit
  | _ => false

/-- Digits with a base in front of them. -/
def readPrefixed : List Char → Option Nat
  | '0' :: 'x' :: digits => readBase 16 digits
  | '0' :: 'o' :: digits => readBase 8 digits
  | '0' :: 'b' :: digits => readBase 2 digits
  | _ => none

/-- An integer of any size: in a base, or in decimal without leading zeros. -/
def readInteger (s : List Char) : Option Int :=
  let (negative, digits) := takeSign s
  match readPrefixed digits with
  | some n => some (if negative then -n else n)
  | none =>
    if isZeroPadded s then none
    else (readBase 10 digits).map fun n => if negative then -n else n

/-- How an integer can be kept. -/
inductive IntegerSize where
  /-- In 64 bits. -/
  | fits
  /-- Not in 64 bits, but in 128: such a number is an error. -/
  | oversized
  /-- Not even in 128 bits. -/
  | huge
  deriving DecidableEq

def integerSize (n : Int) : IntegerSize :=
  if -Nat.pow 2 63 ≤ n ∧ n < Nat.pow 2 64 then .fits
  else if -Nat.pow 2 127 ≤ n ∧ n < Nat.pow 2 128 then .oversized
  else .huge

/-- A floating-point number: a finite decimal or one of the words for special values. -/
def readFloat (s : List Char) : Option Binary64 :=
  let unsigned := match s with
    | '+' :: rest => rest
    | s => s
  if s.head? = some '+' ∧ (unsigned.head? = some '+' ∨ unsigned.head? = some '-') then none
  else if [".inf", ".Inf", ".INF"].contains (String.ofList unsigned) then some .infinity
  else if ["-.inf", "-.Inf", "-.INF"].contains (String.ofList s) then some .negativeInfinity
  else if [".nan", ".NaN", ".NAN"].contains (String.ofList s) then some .nan
  else (Binary64.read unsigned).filter Binary64.isFinite

/-- An integer of a document; the outer result is none if the text is no integer, the inner one if
it is an oversized one. -/
def integerValue? (s : List Char) : Option (Option Yaml) :=
  match readInteger s with
  | none => none
  | some n =>
    match integerSize n with
    | .fits => some (some (.number (.int n)))
    | .oversized => some none
    | .huge => none

def plainValue (s : String) : Option Yaml :=
  if s = "" ∨ readNull s then some .null
  else
    match readBool s with
    | some b => some (.bool b)
    | none =>
      match integerValue? s.toList with
      | some value => value
      | none =>
        match if isZeroPadded s.toList then none else readFloat s.toList with
        | some x => some (.number (.float x))
        | none => some (.string s)

/-- The value of a scalar whose tag is none of its own kind. A tag of the standard says what the
text must be; any other tag makes it a text. -/
def scalarValue (tag : Option Tag) (plain : Bool) (s : String) : Option Yaml :=
  match tag with
  | none => if plain then plainValue s else some (.string s)
  | some tag =>
    if tag = .bool then (readBool s).map .bool
    else if tag = .int then (integerValue? s.toList).join
    else if tag = .float then (readFloat s.toList).map fun x => .number (.float x)
    else if tag = .null then (if readNull s then some .null else none)
    else if tag.isOwn && plain then plainValue s
    else some (.string s)

end Phrasebook.Document.Yaml
