import Phrasebook.Condition.Reader

/-!
# Reading conditions in place

A cursor moves over the bytes of a fragment and cuts out of the text what it needs: a word that may
come next, a number, the message text. It keeps the slices that it takes, also of a fragment that
turns out to be malformed. What it reads is what the reader of characters reads.
-/

namespace Phrasebook.Condition

open Number Text

/-- The bytes of a text from a position up to another one. -/
structure Slice where
  start : Nat
  stop : Nat
  deriving DecidableEq

/-- A position among the bytes of a text, and the slices of the text so far. -/
structure Cursor where
  position : Nat
  slices : List Slice
  deriving DecidableEq

namespace Cursor

/-- Why nothing was read. -/
inductive Failure where
  | noCondition
  | malformed (offset : Nat) (message : String)
  deriving DecidableEq

def Failure.ofReadError : ReadError → Failure
  | .noCondition => .noCondition
  | .malformed offset expected => .malformed offset expected.message

/-- What was read, and the cursor behind it; after a failure, the cursor where it stopped. -/
abbrev Outcome (α : Type) := Except Failure α × Cursor

/-- In front of a text. -/
def first : Cursor := ⟨0, []⟩

def moveTo (c : Cursor) (position : Nat) : Cursor := { c with position }

def next (c : Cursor) : Cursor := c.moveTo (c.position + 1)

def malformed {α : Type} (c : Cursor) (message : String) : Outcome α :=
  (.error (.malformed c.position message), c)

variable (source : String)

/-- The next byte, as the character with its number. -/
def peek (c : Cursor) : Option Char := source.toByteArray[c.position]?.map Char.ofUInt8

theorem position_lt_of_peek {source : String} {c : Cursor} {b : Char}
    (h : c.peek source = some b) : c.position < source.utf8ByteSize := by
  obtain ⟨byte, hbyte, -⟩ := Option.map_eq_some_iff.mp h
  rw [← String.size_toByteArray]
  exact (getElem?_eq_some_iff.mp hbyte).1

/-- Pass over bytes of a class. -/
def skipWhile (accepts : Char → Bool) (c : Cursor) : Cursor :=
  match _h : c.peek source with
  | some b => if accepts b then skipWhile accepts c.next else c
  | none => c
termination_by source.utf8ByteSize - c.position
decreasing_by
  have hlt := position_lt_of_peek _h
  simp only [next, moveTo]
  omega

def skipBlanks (c : Cursor) : Cursor := c.skipWhile source isAsciiBlank

def skipDigits (c : Cursor) : Cursor := c.skipWhile source Char.isDigit

/-- Behind the next byte, if it is the expected one. -/
def eat (expected : Char) (c : Cursor) : Option Cursor :=
  if c.peek source = some expected then some c.next else none

/-- The text between two positions. -/
def slice (start stop : Nat) (c : Cursor) : String × Cursor :=
  (String.Pos.Raw.extract source ⟨start⟩ ⟨stop⟩, { c with slices := c.slices ++ [⟨start, stop⟩] })

def rest (c : Cursor) : String × Cursor := c.slice source c.position source.utf8ByteSize

/-- Whether a word comes next, and the cursor behind it if it does. -/
def eatWord (word : String) (c : Cursor) : Bool × Cursor :=
  let (rest, c) := c.rest source
  if word.toList.isPrefixOf rest.toList then (true, c.moveTo (c.position + word.utf8ByteSize))
  else (false, c)

def expect (expected : Char) (message : String) (c : Cursor) : Outcome Unit :=
  match c.eat source expected with
  | some c => (.ok (), c)
  | none => c.malformed message

/-- Pass over a point and the digits after it. A point without digits is left alone. -/
def skipFraction (c : Cursor) : Cursor :=
  match c.eat source '.' with
  | some point =>
    let digits := point.skipDigits source
    if digits.position = point.position then digits.moveTo c.position else digits
  | none => c

def number (c : Cursor) : Outcome Binary64 :=
  let sign := (c.eat source '-').getD c
  let whole := sign.skipDigits source
  if whole.position = sign.position then (whole.moveTo c.position).malformed Expected.number.message
  else
    let last := whole.skipFraction source
    let (text, last) := last.slice source c.position last.position
    match Binary64.read text.toList with
    | some x => (.ok x, last)
    | none => last.malformed "number out of range"

theorem position_le_skipWhile (accepts : Char → Bool) (c : Cursor) :
    c.position ≤ (c.skipWhile source accepts).position := by
  fun_induction skipWhile source accepts c with
  | case1 c b h haccepts ih => exact Nat.le_of_succ_le ih
  | case2 => exact Nat.le_refl _
  | case3 => exact Nat.le_refl _

theorem position_eq_of_eat {source : String} {expected : Char} {c after : Cursor}
    (h : c.eat source expected = some after) :
    after.position = c.position + 1 ∧ c.position < source.utf8ByteSize := by
  unfold eat at h
  split at h
  · rename_i hpeek
    cases h
    exact ⟨rfl, position_lt_of_peek hpeek⟩
  · cases h

theorem position_le_skipFraction (c : Cursor) :
    c.position ≤ (c.skipFraction source).position := by
  unfold skipFraction
  split
  · rename_i point hpoint
    have hnext := (position_eq_of_eat hpoint).1
    have hdigits := position_le_skipWhile source Char.isDigit point
    dsimp only
    split
    · exact Nat.le_refl _
    · simp only [skipDigits]
      omega
  · exact Nat.le_refl _

theorem position_le_of_number {source : String} {c after : Cursor} {x : Binary64}
    (h : c.number source = (.ok x, after)) : c.position ≤ after.position := by
  have hsign : c.position ≤ ((c.eat source '-').getD c).position := by
    cases heat : c.eat source '-' with
    | none => exact Nat.le_refl _
    | some after =>
        have hnext := (position_eq_of_eat heat).1
        simp only [Option.getD_some]
        omega
  have hwhole := position_le_skipWhile source Char.isDigit ((c.eat source '-').getD c)
  have hlast := position_le_skipFraction source (((c.eat source '-').getD c).skipDigits source)
  unfold number at h
  dsimp only at h
  split at h
  · cases h
  · simp only [slice] at h
    split at h
    · cases h
      exact Nat.le_trans hsign (Nat.le_trans hwhole hlast)
    · cases h

/-- The numbers of a list, with commas between them. -/
def numbers (c : Cursor) : Outcome (List Binary64) :=
  match _hx : (c.skipBlanks source).number source with
  | (.error e, c) => (.error e, c)
  | (.ok x, after) =>
    match _hcomma : (after.skipBlanks source).eat source ',' with
    | some more =>
      match numbers more with
      | (.error e, c) => (.error e, c)
      | (.ok xs, c) => (.ok (x :: xs), c)
    | none => (.ok [x], after.skipBlanks source)
termination_by source.utf8ByteSize - c.position
decreasing_by
  have hblanks := position_le_skipWhile source isAsciiBlank c
  have hnumber := position_le_of_number _hx
  have hafter := position_le_skipWhile source isAsciiBlank after
  have hmore := position_eq_of_eat _hcomma
  simp only [skipBlanks] at hnumber hmore
  omega

/-- The rest of a list of values, after its opening brace. -/
def values (c : Cursor) : Outcome Condition :=
  match c.numbers source with
  | (.error e, c) => (.error e, c)
  | (.ok xs, c) =>
    match c.expect source '\x7d' Expected.closingBrace.message with
    | (.error e, c) => (.error e, c)
    | (.ok (), c) => (.ok (.values xs), c)

def lowerBound (c : Cursor) : Outcome Binary64 :=
  match c.eatWord source "-Inf" with
  | (true, c) => (.ok .negativeInfinity, c)
  | (false, c) => c.number source

def upperBound (c : Cursor) : Outcome Binary64 :=
  match c.eatWord source "+Inf" with
  | (true, c) => (.ok .infinity, c)
  | (false, c) =>
    match c.eatWord source "Inf" with
    | (true, c) => (.ok .infinity, c)
    | (false, c) => c.number source

/-- The rest of an interval, after its opening bracket. -/
def interval (includesLower : Bool) (c : Cursor) : Outcome Condition :=
  match (c.skipBlanks source).lowerBound source with
  | (.error e, c) => (.error e, c)
  | (.ok lower, c) =>
    match (c.skipBlanks source).expect source ',' Expected.comma.message with
    | (.error e, c) => (.error e, c)
    | (.ok (), c) =>
      match (c.skipBlanks source).upperBound source with
      | (.error e, c) => (.error e, c)
      | (.ok upper, c) =>
        let c := c.skipBlanks source
        match c.peek source with
        | some ']' => (.ok (.interval ⟨lower, upper, includesLower, true⟩), c.next)
        | some '[' => (.ok (.interval ⟨lower, upper, includesLower, false⟩), c.next)
        | _ => c.malformed Expected.closingBracket.message

/-- A condition after the leading blanks. -/
def body (c : Cursor) : Outcome Condition :=
  match c.peek source with
  | some '\x7b' => c.next.values source
  | some '[' => c.next.interval source true
  | some ']' => c.next.interval source false
  | _ => (.error .noCondition, c)

/-- Read a condition off the front of a fragment; the rest is the message text. -/
def read : Outcome (Condition × String) :=
  match (first.skipBlanks source).body source with
  | (.error e, c) => (.error e, c)
  | (.ok condition, c) =>
    let (text, c) := (c.skipBlanks source).rest source
    (.ok (condition, text), c)

end Cursor

end Phrasebook.Condition
