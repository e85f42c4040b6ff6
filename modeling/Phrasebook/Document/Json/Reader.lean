import Phrasebook.Document.Json
import Phrasebook.Document.Json.Number
import Phrasebook.Text.Hex

/-!
# Reading JSON

One value with blanks around it. Values nest to a limit.
-/

namespace Phrasebook.Document.Json

open Text

/-- How many arrays and objects may enclose a value. -/
def maxNesting : Nat := 127

def isSpace (c : Char) : Bool := c == ' ' || c == '\t' || c == '\n' || c == '\r'

def skipSpaces (s : List Char) : List Char := s.dropWhile isSpace

def escape? : Char → Option Char
  | '"' => some '"'
  | '\\' => some '\\'
  | '/' => some '/'
  | 'b' => some '\x08'
  | 'f' => some '\x0c'
  | 'n' => some '\n'
  | 'r' => some '\r'
  | 't' => some '\t'
  | _ => none

/-- The character that two surrogates stand for. -/
def joinSurrogates (high low : Nat) : Option Char :=
  if 0xD800 ≤ high ∧ high ≤ 0xDBFF ∧ 0xDC00 ≤ low ∧ low ≤ 0xDFFF then
    scalar? (0x10000 + (high - 0xD800) * 0x400 + (low - 0xDC00))
  else none

/-- The rest of a string after its opening quote, and what follows the closing one. -/
def stringBody : List Char → Option (List Char × List Char)
  | [] => none
  | '"' :: rest => some ([], rest)
  | '\\' :: 'u' :: a :: b :: c :: d :: '\\' :: 'u' :: a' :: b' :: c' :: d' :: rest => do
    let high ← hexValue? [a, b, c, d]
    match scalar? high with
    | some char =>
      let (chars, rest) ← stringBody ('\\' :: 'u' :: a' :: b' :: c' :: d' :: rest)
      return (char :: chars, rest)
    | none =>
      let low ← hexValue? [a', b', c', d']
      let char ← joinSurrogates high low
      let (chars, rest) ← stringBody rest
      return (char :: chars, rest)
  | '\\' :: 'u' :: a :: b :: c :: d :: rest => do
    let char ← scalar? (← hexValue? [a, b, c, d])
    let (chars, rest) ← stringBody rest
    return (char :: chars, rest)
  | '\\' :: c :: rest => do
    let char ← escape? c
    let (chars, rest) ← stringBody rest
    return (char :: chars, rest)
  | c :: rest =>
    if c.toNat < 0x20 || c == '\\' then none
    else do
      let (chars, rest) ← stringBody rest
      return (c :: chars, rest)

mutual

/-- A value with blanks before it, enclosed by at most `depth` more levels. -/
def value (fuel depth : Nat) (s : List Char) : Option (JsonDocument × List Char) :=
  match fuel with
  | 0 => none
  | fuel + 1 =>
    match skipSpaces s with
    | 'n' :: 'u' :: 'l' :: 'l' :: rest => some (.null, rest)
    | 't' :: 'r' :: 'u' :: 'e' :: rest => some (.bool true, rest)
    | 'f' :: 'a' :: 'l' :: 's' :: 'e' :: rest => some (.bool false, rest)
    | '"' :: rest => do
      let (chars, rest) ← stringBody rest
      return (.string (String.ofList chars), rest)
    | '[' :: rest =>
      match depth with
      | 0 => none
      | depth + 1 =>
        match skipSpaces rest with
        | ']' :: rest => some (.array [], rest)
        | rest => do
          let (items, rest) ← items fuel depth rest
          return (.array items, rest)
    | '\x7b' :: rest =>
      match depth with
      | 0 => none
      | depth + 1 =>
        match skipSpaces rest with
        | '\x7d' :: rest => some (.object [], rest)
        | rest => do
          let (members, rest) ← members fuel depth rest
          return (.object members, rest)
    | rest => do
      let (n, rest) ← number? rest
      return (.number n, rest)

def items (fuel depth : Nat) (s : List Char) : Option (List JsonDocument × List Char) :=
  match fuel with
  | 0 => none
  | fuel + 1 => do
    let (item, rest) ← value fuel depth s
    match skipSpaces rest with
    | ',' :: rest =>
      let (others, rest) ← items fuel depth rest
      return (item :: others, rest)
    | ']' :: rest => return ([item], rest)
    | _ => none

def members (fuel depth : Nat) (s : List Char) :
    Option (List (String × JsonDocument) × List Char) :=
  match fuel with
  | 0 => none
  | fuel + 1 =>
    match skipSpaces s with
    | '"' :: rest => do
      let (key, rest) ← stringBody rest
      match skipSpaces rest with
      | ':' :: rest =>
        let (item, rest) ← value fuel depth rest
        match skipSpaces rest with
        | ',' :: rest =>
          let (others, rest) ← members fuel depth rest
          return ((String.ofList key, item) :: others, rest)
        | '\x7d' :: rest => return ([(String.ofList key, item)], rest)
        | _ => none
      | _ => none
    | _ => none

end

/-- Read a document: one value and nothing else. Two steps suffice for every character. -/
def read (s : List Char) : Option JsonDocument := do
  let (v, rest) ← value (2 * s.length + 2) maxNesting s
  if (skipSpaces rest).isEmpty then some v else none

end Phrasebook.Document.Json
