import Phrasebook.Condition
import Phrasebook.Text.Blank

/-!
# Reading conditions

Reads a condition off the front of a plural fragment. ASCII blanks may stand before it,
after it and between its parts. A fragment that does not start like a condition has
none; one that starts like a condition and breaks off is malformed at the byte where
the reading stopped.
-/

namespace Phrasebook.Condition

open Number Text

/-- What a malformed condition should have had. -/
inductive Expected where
  | number
  | closingBrace
  | comma
  | closingBracket
  deriving DecidableEq

inductive ReadError where
  | noCondition
  | malformed (offset : Nat) (expected : Expected)
  deriving DecidableEq

def Expected.message : Expected → String
  | .number => "expected a number"
  | .closingBrace => "expected `\x7d`"
  | .comma => "expected `,` between bounds"
  | .closingBracket => "expected `[` or `]` after right bound"

def ReadError.message : ReadError → String
  | .noCondition => "fragment has no explicit rule prefix"
  | .malformed offset expected =>
    "malformed rule prefix at byte " ++ toString offset ++ ": " ++ expected.message

/-- A failed reading: what was expected, and the text from there on. -/
structure Fault where
  expected : Expected
  rest : List Char
  deriving DecidableEq

/-- A reader's result: a value and the rest of the text. -/
abbrev Reading (α : Type) := Except Fault (α × List Char)

/-- The digits after a point, or none if no digit follows the point. -/
def fraction : List Char → List Char × List Char
  | '.' :: rest =>
    let (digits, after) := spanDigits rest
    if digits.isEmpty then ([], '.' :: rest) else (digits, after)
  | rest => ([], rest)

def magnitude (s : List Char) : Option (Magnitude × List Char) :=
  let (whole, rest) := spanDigits s
  if whole.isEmpty then none
  else
    let (digits, after) := fraction rest
    some ((Decimal.ofParts whole digits 0).toMagnitude, after)

/-- An optional minus, and what follows it. -/
def takeMinus : List Char → Bool × List Char
  | '-' :: rest => (true, rest)
  | rest => (false, rest)

def number (s : List Char) : Reading Binary64 :=
  match magnitude (takeMinus s).2 with
  | none => .error ⟨.number, s⟩
  | some (m, rest) => .ok (.signed (takeMinus s).1 m, rest)

theorem length_fraction (s : List Char) : (fraction s).2.length ≤ s.length := by
  unfold fraction
  split
  · rename_i rest
    have : (spanDigits rest).2.length ≤ rest.length :=
      (List.dropWhile_suffix _).length_le
    dsimp only
    split <;> simp_all
    omega
  · exact Nat.le_refl _

theorem length_magnitude {s rest : List Char} {m : Magnitude}
    (h : magnitude s = some (m, rest)) : rest.length < s.length := by
  have hs := congrArg List.length (takeWhile_append_spanDigits s)
  have hf := length_fraction (spanDigits s).2
  simp only [magnitude] at h
  split at h
  · cases h
  · rename_i hne
    simp only [Option.some.injEq, Prod.mk.injEq] at h
    obtain ⟨_, rfl⟩ := h
    have : 0 < (spanDigits s).1.length := by
      cases hw : (spanDigits s).1 <;> simp_all
    simp only [List.length_append] at hs
    omega

theorem length_takeMinus (s : List Char) : (takeMinus s).2.length ≤ s.length := by
  unfold takeMinus
  split <;> simp

theorem length_number {s rest : List Char} {x : Binary64}
    (h : number s = .ok (x, rest)) : rest.length < s.length := by
  unfold number at h
  split at h
  · cases h
  · rename_i hm
    simp only [Except.ok.injEq, Prod.mk.injEq] at h
    obtain ⟨_, rfl⟩ := h
    exact Nat.lt_of_lt_of_le (length_magnitude hm) (length_takeMinus s)

theorem length_skipBlanks (s : List Char) : (skipBlanks s).length ≤ s.length :=
  (List.dropWhile_suffix _).length_le

def numbers (s : List Char) : Reading (List Binary64) :=
  match _h : number (skipBlanks s) with
  | .error fault => .error fault
  | .ok (x, rest) =>
    match _hr : skipBlanks rest with
    | ',' :: more =>
      match numbers more with
      | .error fault => .error fault
      | .ok (xs, rest) => .ok (x :: xs, rest)
    | rest => .ok ([x], rest)
termination_by s.length
decreasing_by
  have h1 := length_number _h
  have h2 := length_skipBlanks s
  have h3 := length_skipBlanks rest
  simp only [_hr, List.length_cons] at h3
  omega

/-- The rest of a list of values, after its opening brace. -/
def valuesBody (s : List Char) : Reading Condition :=
  match numbers s with
  | .error fault => .error fault
  | .ok (xs, '}' :: rest) => .ok (.values xs, rest)
  | .ok (_, rest) => .error ⟨.closingBrace, rest⟩

/-- A left bound: a number or the word for minus infinity. -/
def lowerBound : List Char → Reading Binary64
  | '-' :: 'I' :: 'n' :: 'f' :: rest => .ok (.negativeInfinity, rest)
  | s => number s

/-- A right bound: a number or a word for infinity. -/
def upperBound : List Char → Reading Binary64
  | '+' :: 'I' :: 'n' :: 'f' :: rest => .ok (.infinity, rest)
  | 'I' :: 'n' :: 'f' :: rest => .ok (.infinity, rest)
  | s => number s

/-- The rest of an interval, after its opening bracket. -/
def intervalBody (includesLower : Bool) (s : List Char) : Reading Condition :=
  match lowerBound (skipBlanks s) with
  | .error fault => .error fault
  | .ok (lower, rest) =>
    match skipBlanks rest with
    | ',' :: rest =>
      match upperBound (skipBlanks rest) with
      | .error fault => .error fault
      | .ok (upper, rest) =>
        match skipBlanks rest with
        | ']' :: rest => .ok (.interval ⟨lower, upper, includesLower, true⟩, rest)
        | '[' :: rest => .ok (.interval ⟨lower, upper, includesLower, false⟩, rest)
        | rest => .error ⟨.closingBracket, rest⟩
    | rest => .error ⟨.comma, rest⟩

/-- A condition after the leading blanks; none if the text does not start like one. -/
def body : List Char → Option (Reading Condition)
  | '\x7b' :: rest => some (valuesBody rest)
  | '[' :: rest => some (intervalBody true rest)
  | ']' :: rest => some (intervalBody false rest)
  | _ => none

/-- The bytes of a text in UTF-8. -/
def byteLength : List Char → Nat
  | [] => 0
  | c :: rest => c.utf8Size + byteLength rest

/-- Read a condition off the front of a fragment; the rest is the message text. -/
def read (fragment : List Char) : Except ReadError (Condition × List Char) :=
  match body (skipBlanks fragment) with
  | none => .error .noCondition
  | some (.error fault) =>
    .error (.malformed (byteLength fragment - byteLength fault.rest) fault.expected)
  | some (.ok (condition, rest)) => .ok (condition, skipBlanks rest)

/-- Read a condition off the front of a fragment given as a string. -/
def parse (fragment : String) : Except ReadError (Condition × String) :=
  (read fragment.toList).map fun (condition, rest) => (condition, String.ofList rest)

end Phrasebook.Condition
