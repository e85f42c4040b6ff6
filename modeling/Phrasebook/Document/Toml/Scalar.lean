import Phrasebook.Document.Toml
import Phrasebook.Number.Decimal
import Phrasebook.Text.Hex
import Phrasebook.Text.Split

/-!
# Scalars of TOML documents

Strings in their four forms, and the words for numbers, truth values, dates and times.
Line breaks are single line feeds here.
-/

namespace Phrasebook.Document.Toml

open Number

def isBlank (c : Char) : Bool := c == ' ' || c == '\t'

/-- Characters that may stand in comments and strings: all but control characters. -/
def isPrintable (c : Char) : Bool := c == '\t' || (0x20 ≤ c.toNat && c.toNat ≠ 0x7F)

/-! ## Strings -/

/-- A code point in a number of hexadecimal digits. -/
def codePoint? (count : Nat) (s : List Char) : Option (Char × Nat) := do
  let digits := s.take count
  if digits.length ≠ count then none
  let c ← Text.scalar? (← Text.hexValue? digits)
  return (c, count + 1)

/-- The character that is written behind a backslash, and the number of characters it takes. -/
def escape? : List Char → Option (Char × Nat)
  | 'b' :: _ => some ('\x08', 1)
  | 'f' :: _ => some ('\x0c', 1)
  | 'n' :: _ => some ('\n', 1)
  | 'r' :: _ => some ('\r', 1)
  | 't' :: _ => some ('\t', 1)
  | '"' :: _ => some ('"', 1)
  | '\\' :: _ => some ('\\', 1)
  | 'u' :: rest => codePoint? 4 rest
  | 'U' :: rest => codePoint? 8 rest
  | _ => none

/-- A string up to its quotation mark. -/
def basicBody : List Char → Option (List Char × List Char)
  | [] => none
  | '"' :: rest => some ([], rest)
  | '\\' :: rest => do
    let (c, length) ← escape? rest
    let (chars, rest) ← basicBody (rest.drop length)
    return (c :: chars, rest)
  | c :: rest => do
    if !isPrintable c then none
    let (chars, rest) ← basicBody rest
    return (c :: chars, rest)
termination_by s => s.length
decreasing_by all_goals
  simp only [List.length_cons, List.length_drop]
  omega

/-- What follows a backslash at the end of a line: all blanks and line breaks are left out. -/
def continued? (s : List Char) : Option (List Char) :=
  match s.dropWhile isBlank with
  | '\n' :: rest => some (rest.dropWhile fun c => isBlank c || c == '\n')
  | _ => none

theorem length_of_continued? {s rest : List Char} (h : continued? s = some rest) :
    rest.length < s.length := by
  unfold continued? at h
  split at h
  · rename_i after heq
    have h1 : (s.dropWhile isBlank).length ≤ s.length := (List.dropWhile_suffix _).length_le
    have h2 : (after.dropWhile fun c => isBlank c || c == '\n').length ≤ after.length :=
      (List.dropWhile_suffix _).length_le
    simp only [Option.some.injEq] at h
    subst h
    simp only [heq, List.length_cons] at h1
    omega
  · cases h

/-- The end of a string with three marks: up to two more marks before them belong to it. -/
def tripleEnd (mark : Char) : List Char → List Char × List Char
  | a :: b :: rest =>
    if a = mark then
      if b = mark then ([mark, mark], rest) else ([mark], b :: rest)
    else ([], a :: b :: rest)
  | [a] => if a = mark then ([mark], []) else ([], [a])
  | [] => ([], [])

/-- A string with three marks up to its end. -/
def multilineBasicBody : List Char → Option (List Char × List Char)
  | [] => none
  | '"' :: '"' :: '"' :: rest => some (tripleEnd '"' rest)
  | '\\' :: rest =>
    match _h : continued? rest with
    | some rest => multilineBasicBody rest
    | none => do
      let (c, length) ← escape? rest
      let (chars, rest) ← multilineBasicBody (rest.drop length)
      return (c :: chars, rest)
  | c :: rest => do
    if !isPrintable c && c ≠ '\n' then none
    let (chars, rest) ← multilineBasicBody rest
    return (c :: chars, rest)
termination_by s => s.length
decreasing_by
  · have := length_of_continued? _h
    simp only [List.length_cons]
    omega
  · simp only [List.length_cons, List.length_drop]
    omega
  · simp only [List.length_cons]
    omega

/-- A literal string up to its apostrophe. -/
def literalBody : List Char → Option (List Char × List Char)
  | [] => none
  | '\'' :: rest => some ([], rest)
  | c :: rest => do
    if !isPrintable c then none
    let (chars, rest) ← literalBody rest
    return (c :: chars, rest)

/-- A literal string with three apostrophes up to its end. -/
def multilineLiteralBody : List Char → Option (List Char × List Char)
  | [] => none
  | '\'' :: '\'' :: '\'' :: rest => some (tripleEnd '\'' rest)
  | c :: rest => do
    if !isPrintable c && c ≠ '\n' then none
    let (chars, rest) ← multilineLiteralBody rest
    return (c :: chars, rest)

/-- A line break right after three marks is left out. -/
def dropBreak : List Char → List Char
  | '\n' :: rest => rest
  | rest => rest

/-- A string of one line, as keys can be. -/
def lineString? : List Char → Option (List Char × List Char)
  | '"' :: rest => basicBody rest
  | '\'' :: rest => literalBody rest
  | _ => none

def string? : List Char → Option (List Char × List Char)
  | '"' :: '"' :: '"' :: rest => multilineBasicBody (dropBreak rest)
  | '\'' :: '\'' :: '\'' :: rest => multilineLiteralBody (dropBreak rest)
  | rest => lineString? rest

/-! ## Words -/

def isWordChar (c : Char) : Bool :=
  c.isAlphanum || c == '+' || c == '-' || c == '_' || c == '.' || c == ':'

/-- Digits with single underscores between them. -/
def digits? (isDigit : Char → Bool) (s : List Char) : Option (List Char) :=
  let groups := Text.split '_' s
  if groups.all fun group => !group.isEmpty && group.all isDigit then some groups.flatten else none

/-- Decimal digits without a zero in front. -/
def wholeDigits? (s : List Char) : Option (List Char) := do
  let digits ← digits? Char.isDigit s
  if digits.head? = some '0' ∧ 1 < digits.length then none else some digits

def digit (c : Char) : Nat := (Text.hexDigit? c).getD 0

def isDigitIn (base : Nat) (c : Char) : Bool :=
  match Text.hexDigit? c with
  | some n => n < base
  | none => false

/-- An integer, in decimal digits or behind a letter for another base. -/
def anyInteger? : List Char → Option Int
  | '0' :: 'x' :: rest => based 16 rest
  | '0' :: 'o' :: rest => based 8 rest
  | '0' :: 'b' :: rest => based 2 rest
  | s => do
    let (negative, rest) := takeSign s
    let n := ofDecimalDigits (← wholeDigits? rest)
    return if negative then -n else n
where
  based (base : Nat) (s : List Char) : Option Int :=
    (digits? (isDigitIn base) s).map fun ds => ofDigits base digit ds

def integer? (s : List Char) : Option Int :=
  (anyInteger? s).filter fitsInt64

/-- Whether a text is an exponent: a sign and digits. -/
def isExponent (s : List Char) : Bool := (digits? Char.isDigit (takeSign s).2).isSome

/-- Whether a text is a whole part with perhaps a fraction. -/
def isPointed (s : List Char) (needsPoint : Bool) : Bool :=
  match Text.splitOnce '.' s with
  | some (whole, fraction) => (wholeDigits? whole).isSome && (digits? Char.isDigit fraction).isSome
  | none => !needsPoint && (wholeDigits? s).isSome

/-- Whether a text is a number with a point or an exponent. Numbers above the finite ones are
none. -/
def isFloat (s : List Char) : Bool :=
  let (_, rest) := takeSign s
  let mantissa := rest.takeWhile fun c => c ≠ 'e' && c ≠ 'E'
  let formed :=
    match rest.dropWhile fun c => c ≠ 'e' && c ≠ 'E' with
    | [] => isPointed mantissa true
    | _ :: exponent => isPointed mantissa false && isExponent exponent
  formed && Binary64.read (s.filter (· ≠ '_')) ≠ some .infinity

/-- Whether a text is a word for an infinity or for the undefined number. -/
def isSpecialFloat (s : List Char) : Bool :=
  let (_, rest) := takeSign s
  rest = "inf".toList || rest = "nan".toList

/-! ## Dates and times -/

def twoDigits? : List Char → Option (Nat × List Char)
  | a :: b :: rest =>
    if a.isDigit && b.isDigit then some (ofDecimalDigits [a, b], rest) else none
  | _ => none

def isLeapYear (year : Nat) : Bool := year % 4 == 0 && (year % 100 ≠ 0 || year % 400 == 0)

def daysInMonth (year month : Nat) : Nat :=
  if month = 2 then (if isLeapYear year then 29 else 28)
  else if month ∈ [4, 6, 9, 11] then 30
  else 31

def afterDate? (s : List Char) : Option (List Char) := do
  let (century, rest) ← twoDigits? s
  let (year, rest) ← twoDigits? rest
  let year := 100 * century + year
  match rest with
  | '-' :: rest =>
    let (month, rest) ← twoDigits? rest
    match rest with
    | '-' :: rest =>
      let (day, rest) ← twoDigits? rest
      if 1 ≤ month ∧ month ≤ 12 ∧ 1 ≤ day ∧ day ≤ daysInMonth year month then some rest else none
    | _ => none
  | _ => none

def afterMinute? (s : List Char) : Option (List Char) := do
  let (hour, rest) ← twoDigits? s
  match rest with
  | ':' :: rest =>
    let (minute, rest) ← twoDigits? rest
    if hour ≤ 23 ∧ minute ≤ 59 then some rest else none
  | _ => none

/-- What follows a time. A minute can have a second number 60. -/
def afterTime? (s : List Char) : Option (List Char) := do
  match ← afterMinute? s with
  | ':' :: rest =>
    let (second, rest) ← twoDigits? rest
    if 60 < second then none
    match rest with
    | '.' :: rest =>
      let (fraction, rest) := spanDigits rest
      if fraction.isEmpty then none else some rest
    | rest => some rest
  | _ => none

def isTime (s : List Char) : Bool := afterTime? s = some []

/-- Whether a text is a time with perhaps a distance from universal time. -/
def isOffsetTime (s : List Char) : Bool :=
  match afterTime? s with
  | none => false
  | some [] => true
  | some (c :: rest) =>
    if c = 'Z' ∨ c = 'z' then rest.isEmpty
    else if c = '+' ∨ c = '-' then afterMinute? rest = some []
    else false

def isDate (s : List Char) : Bool := afterDate? s = some []

/-- Whether a text is a date, a time, or a date with a time behind the letter T. -/
def isMoment (s : List Char) : Bool :=
  match afterDate? s with
  | some [] => true
  | some (c :: rest) => (c == 'T' || c == 't') && isOffsetTime rest
  | none => isTime s

/-- The value of a word. -/
def word? (s : List Char) : Option Toml :=
  if s = "true".toList then some (.bool true)
  else if s = "false".toList then some (.bool false)
  else if isMoment s then some .moment
  else if isSpecialFloat s || isFloat s then some .float
  else (integer? s).map .int

/-- A word and the rest of the text. A date and a time can have a space between them. -/
def wordValue? (s : List Char) : Option (Toml × List Char) :=
  let word := s.takeWhile isWordChar
  let rest := s.dropWhile isWordChar
  let time := (rest.drop 1).takeWhile isWordChar
  if isDate word && rest.head? == some ' ' && isOffsetTime time then
    some (.moment, (rest.drop 1).dropWhile isWordChar)
  else (word? word).map fun value => (value, rest)

end Phrasebook.Document.Toml
