/-!
# Placed characters

The characters of a YAML document with their places. All spellings of a line break but
the two Unicode separators are one line feed, and a NUL, which no document can hold,
stands at the end. A byte order mark has a column like any other character, so what
follows it on its line is indented by one.
-/

namespace Phrasebook.Document.Yaml

/-- A character with its line, its column in characters, and how many bytes of its text stand
before it. -/
structure Placed where
  char : Char
  line : Nat
  column : Nat
  offset : Nat

/-- The rest of a document from some place on. -/
abbrev Remainder := List Placed

def endChar : Char := '\x00'

def isBreak (c : Char) : Bool := c == '\n' || c == '\u2028' || c == '\u2029'

def isSpaceOrTab (c : Char) : Bool := c == ' ' || c == '\t'

def isBreakOrEnd (c : Char) : Bool := isBreak c || c == endChar

def isSpaceOrEnd (c : Char) : Bool := isSpaceOrTab c || isBreakOrEnd c

/-- The characters of anchors, directive names and tag handles. -/
def isWordChar (c : Char) : Bool := c.isAlphanum || c == '_' || c == '-'

/-- The characters a document may hold. -/
def isAllowed (c : Char) : Bool :=
  let n := c.toNat
  n == 0x09 || n == 0x0A || n == 0x0D || (0x20 ≤ n && n ≤ 0x7E) || n == 0x85 ||
    (0xA0 ≤ n && n ≤ 0xD7FF) || (0xE000 ≤ n && n ≤ 0xFFFD) || 0x10000 ≤ n

/-- Write every line break but the Unicode separators as a line feed. -/
def unifyBreaks : List Char → List Char
  | [] => []
  | '\r' :: '\n' :: rest => '\n' :: unifyBreaks rest
  | c :: rest => (if c == '\r' || c == '\x85' then '\n' else c) :: unifyBreaks rest

/-- Give every character its place. -/
def placeFrom (line column offset : Nat) : List Char → Remainder
  | [] => [⟨endChar, line, column, offset⟩]
  | c :: rest =>
    ⟨c, line, column, offset⟩ ::
      if isBreak c then placeFrom (line + 1) 0 (offset + c.utf8Size) rest
      else placeFrom line (column + 1) (offset + c.utf8Size) rest

/-- The characters of a document in their places. -/
def placeAll (s : List Char) : Remainder := placeFrom 0 0 0 (unifyBreaks s)

namespace Remainder

/-- The character some places ahead. -/
def charAt (text : Remainder) (offset : Nat) : Char :=
  ((text.drop offset).head?.map (·.char)).getD endChar

def next (text : Remainder) : Char := text.charAt 0

def here (text : Remainder) : Placed := text.headD ⟨endChar, 0, 0, 0⟩

def column (text : Remainder) : Nat := text.here.column

/-- Whether three characters and then a space or an end come next. -/
def startsMarker (text : Remainder) (c : Char) : Bool :=
  text.next == c && text.charAt 1 == c && text.charAt 2 == c && isSpaceOrEnd (text.charAt 3)

/-- Whether a line starts here with the marker of a new or finished document. -/
def atMarker (text : Remainder) : Bool :=
  text.column == 0 && (text.startsMarker '-' || text.startsMarker '.')

/-- The characters up to the first that fails a test, and the rest. -/
def span (test : Char → Bool) (text : Remainder) : List Char × Remainder :=
  ((text.takeWhile fun p => test p.char).map (·.char), text.dropWhile fun p => test p.char)

def skip (test : Char → Bool) (text : Remainder) : Remainder := text.dropWhile fun p => test p.char

def skipSpaces (text : Remainder) : Remainder := text.skip isSpaceOrTab

/-- Skip a comment up to the end of its line, if there is one. -/
def skipComment (text : Remainder) : Remainder :=
  if text.next == '#' then text.skip fun c => !isBreakOrEnd c else text

/-- The rest of a line that may only hold blanks and a comment; none if it holds more. -/
def endLine? (text : Remainder) : Option Remainder :=
  let text := text.skipSpaces.skipComment
  if isBreak text.next then some (text.drop 1)
  else if text.next == endChar then some text
  else none

end Remainder

end Phrasebook.Document.Yaml
