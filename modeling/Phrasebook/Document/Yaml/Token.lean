import Phrasebook.Document.Yaml.Placed
import Phrasebook.Document.Yaml.Tag
import Phrasebook.Text.Hex

/-!
# Tokens of YAML documents

The tokens of a document, and the reading of those that are words: anchors, aliases,
tags and directives.
-/

namespace Phrasebook.Document.Yaml

/-- A token. Blocks start and end with tokens that stand for their indentation. -/
inductive Token where
  | endOfText
  | version (major minor : Nat)
  | tagDirective (handle : String) (start : Tag)
  | documentStart
  | documentEnd
  | blockSequenceStart
  | blockMappingStart
  | blockEnd
  | flowSequenceStart
  | flowSequenceEnd
  | flowMappingStart
  | flowMappingEnd
  | blockEntry
  | flowEntry
  | key
  | value
  | alias (name : String)
  | anchor (name : String)
  | tag (handle : String) (suffix : Tag)
  | scalar (plain : Bool) (text : String)
  deriving DecidableEq, Inhabited

/-! ## Anchors -/

/-- Characters that may follow the name of an anchor. -/
def endsAnchor (c : Char) : Bool :=
  isSpaceOrEnd c || c == '?' || c == ':' || c == ',' || c == ']' || c == '\x7d' || c == '%' ||
    c == '@' || c == '\x60'

def anchorName (text : Remainder) : Option (String × Remainder) :=
  let (name, rest) := text.span isWordChar
  if name.isEmpty || !endsAnchor rest.next then none else some (String.ofList name, rest)

/-! ## Tags -/

/-- Characters of a tag; a tag between angle brackets may hold flow indicators. -/
def isTagChar (verbatim : Bool) (c : Char) : Bool :=
  isWordChar c || ";/?:@&=+$.%!~*'()".toList.contains c || (verbatim && ",[]".toList.contains c)

/-- A byte written as a percent sign and two digits. -/
def percentByte? (text : Remainder) : Option Nat :=
  if text.next == '%' then Text.hexValue? [text.charAt 1, text.charAt 2] else none

/-- How many bytes a character takes whose first byte is given. -/
def sequenceLength? (byte : Nat) : Option Nat :=
  if byte < 0x80 then some 1
  else if byte / 0x20 = 6 then some 2
  else if byte / 0x10 = 14 then some 3
  else if byte / 0x08 = 30 then some 4
  else none

/-- Bytes after the first one of a character. -/
def continuation? : Nat → Remainder → Option (List Nat)
  | 0, _ => some []
  | n + 1, text => do
    let byte ← percentByte? text
    if byte / 0x40 = 2 then return byte :: (← continuation? n (text.drop 3)) else none

/-- The bytes of a character written in percent signs. They need not be those of a code point. -/
def percentChar? (text : Remainder) : Option (List Nat) := do
  let first ← percentByte? text
  let length ← sequenceLength? first
  return first :: (← continuation? (length - 1) (text.drop 3))

def tagBytes (verbatim : Bool) : Nat → Remainder → Option (List Nat × Remainder)
  | 0, _ => none
  | fuel + 1, text =>
    if text.next == '%' then do
      let bytes ← percentChar? text
      let (more, rest) ← tagBytes verbatim fuel (text.drop (3 * bytes.length))
      return (bytes ++ more, rest)
    else if isTagChar verbatim text.next then do
      let (more, rest) ← tagBytes verbatim fuel (text.drop 1)
      return (text.next.toNat :: more, rest)
    else some ([], text)

def tagText (verbatim : Bool) (text : Remainder) : Option (Tag × Remainder) := do
  let (bytes, rest) ← tagBytes verbatim (text.length + 1) text
  return (⟨bytes.map UInt8.ofNat⟩, rest)

/-- A tag handle: an exclamation mark, a word, and perhaps another mark. -/
def tagHandle (text : Remainder) : Option (List Char × Remainder) :=
  if text.next == '!' then
    let (word, rest) := Remainder.span isWordChar (text.drop 1)
    if rest.next == '!' then some ('!' :: word ++ ['!'], rest.drop 1) else some ('!' :: word, rest)
  else none

/-- The handle and the suffix of a tag. A handle that is no more than a mark and a word is a mark
before a suffix; nothing after that mark makes it the whole tag. -/
def tagParts (text : Remainder) : Option (List Char × Tag × Remainder) :=
  if text.charAt 1 == '<' then do
    let (suffix, rest) ← tagText true (text.drop 2)
    if suffix.isEmpty || rest.next != '>' then none
    else return ([], suffix.beforeZero, rest.drop 1)
  else do
    let (handle, rest) ← tagHandle text
    let (suffix, rest) ← tagText false rest
    if 1 < handle.length ∧ handle.getLast? = some '!' then
      if suffix.isEmpty then none else return (handle, suffix.beforeZero, rest)
    else
      let suffix := ((Tag.ofString (String.ofList (handle.drop 1))).append suffix).beforeZero
      return if suffix.isEmpty then ([], Tag.mark, rest) else (['!'], suffix, rest)

/-- A tag, which a blank, a line break, the end or a comma inside brackets must follow. -/
def tagToken (flow : Bool) (text : Remainder) : Option (Token × Remainder) := do
  let (handle, suffix, rest) ← tagParts text
  if (flow && rest.next == ',') || isSpaceOrEnd rest.next then
    return (.tag (String.ofList handle) suffix, rest)
  else none

/-! ## Directives -/

/-- A part of a version number: at most nine digits. -/
def versionPart (text : Remainder) : Option (Nat × Remainder) :=
  let (digits, rest) := text.span Char.isDigit
  if digits.isEmpty || 9 < digits.length then none
  else some (digits.foldl (fun n d => 10 * n + (d.toNat - '0'.toNat)) 0, rest)

def versionToken (text : Remainder) : Option (Token × Remainder) := do
  let (major, rest) ← versionPart text.skipSpaces
  if rest.next != '.' then none
  let (minor, rest) ← versionPart (rest.drop 1)
  return (.version major minor, rest)

def tagDirectiveToken (text : Remainder) : Option (Token × Remainder) := do
  let (handle, rest) ← tagHandle text.skipSpaces
  if handle ≠ ['!'] ∧ (handle.length = 1 ∨ handle.getLast? ≠ some '!') then none
  if !isSpaceOrTab rest.next then none
  let (start, rest) ← tagText true rest.skipSpaces
  if start.isEmpty || !isSpaceOrEnd rest.next then none
  else return (.tagDirective (String.ofList handle) start.beforeZero, rest)

/-- A directive after its percent sign, with the rest of its line. -/
def directiveToken (text : Remainder) : Option (Token × Remainder) := do
  let (name, rest) := text.span isWordChar
  if !isSpaceOrEnd rest.next then none
  let (token, rest) ←
    if name = "YAML".toList then versionToken rest
    else if name = "TAG".toList then tagDirectiveToken rest
    else none
  return (token, ← rest.endLine?)

end Phrasebook.Document.Yaml
