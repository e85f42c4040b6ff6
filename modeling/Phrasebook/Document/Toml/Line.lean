import Phrasebook.Document.Toml.Scalar

/-!
# Lines of TOML documents

A document is a list of lines: headers of tables, headers of items of an array of
tables, and assignments of values to dotted keys.
-/

namespace Phrasebook.Document.Toml

/-- A line that says something. -/
inductive Line where
  | table (path : List String)
  | item (path : List String)
  | assignment (path : List String) (key : String) (value : Toml)

/-- The number that the nesting of values and the parts of a key must stay below. -/
def depthLimit : Nat := 80

def skipBlanks (s : List Char) : List Char := s.dropWhile isBlank

/-- Turn pairs of carriage return and line feed into line feeds. -/
def joinBreaks : List Char → List Char
  | '\r' :: '\n' :: rest => '\n' :: joinBreaks rest
  | c :: rest => c :: joinBreaks rest
  | [] => []

/-- Drop blanks, line breaks and comments. -/
def skipFiller : List Char → List Char
  | [] => []
  | c :: rest =>
    if isBlank c || c == '\n' then skipFiller rest
    else if c == '#' then skipFiller (rest.dropWhile isPrintable)
    else c :: rest
termination_by s => s.length
decreasing_by
  · simp only [List.length_cons]
    omega
  · have := (List.dropWhile_suffix isPrintable (l := rest)).length_le
    simp only [List.length_cons]
    omega

/-! ## Keys -/

def isBareKeyChar (c : Char) : Bool := c.isAlphanum || c == '-' || c == '_'

def keyPart? (s : List Char) : Option (String × List Char) :=
  match lineString? s with
  | some (part, rest) => some (String.ofList part, rest)
  | none =>
    let part := s.takeWhile isBareKeyChar
    if part.isEmpty then none else some (String.ofList part, s.dropWhile isBareKeyChar)

/-- The parts of a key with points between them, at most so many. -/
def keyParts? : Nat → List Char → Option (List String × List Char)
  | 0, _ => none
  | limit + 1, s => do
    let (part, rest) ← keyPart? (skipBlanks s)
    match skipBlanks rest with
    | '.' :: rest =>
      let (parts, rest) ← keyParts? limit rest
      return (part :: parts, rest)
    | rest => return ([part], rest)

def key? (s : List Char) : Option (List String × List Char) := keyParts? (depthLimit - 1) s

/-! ## Values -/

/-- What stands under a key of a table in braces: a value, or a table made by dotted keys, which
only other dotted keys of the same table can add to. -/
inductive Inline where
  | value (v : Toml)
  | dotted (entries : List (String × Inline))

namespace Inline

/-- Put a value under a dotted key that is not taken. -/
def insert (value : Toml) (key : String) : List String → Entries Inline → Option (Entries Inline)
  | [], entries =>
    if (entries.get? key).isSome then none else some (entries.set key (.value value))
  | part :: path, entries =>
    match entries.get? part with
    | none => (insert value key path []).map fun inner => entries.set part (.dotted inner)
    | some (.dotted inner) =>
      (insert value key path inner).map fun inner => entries.set part (.dotted inner)
    | some (.value _) => none

mutual

def toToml : Inline → Toml
  | value v => v
  | dotted entries => .table (toTomls entries)

def toTomls : List (String × Inline) → List (String × Toml)
  | [] => []
  | (key, inline) :: rest => (key, inline.toToml) :: toTomls rest

end

end Inline

mutual

/-- A value that at most `depth` more arrays and tables may enclose. -/
def value? (fuel depth : Nat) (s : List Char) : Option (Toml × List Char) :=
  match fuel with
  | 0 => none
  | fuel + 1 =>
    match s with
    | '[' :: rest =>
      match depth with
      | 0 => none
      | depth + 1 => do
        let (items, rest) ← items? fuel depth rest
        return (.array items, rest)
    | '\x7b' :: rest =>
      match depth with
      | 0 => none
      | depth + 1 =>
        match skipBlanks rest with
        | '\x7d' :: rest => some (.table [], rest)
        | rest => do
          let (entries, rest) ← members? fuel depth [] rest
          return (.table (Inline.toTomls entries), rest)
    | c :: rest =>
      if c == '"' || c == '\'' then do
        let (chars, rest) ← string? (c :: rest)
        return (.string (String.ofList chars), rest)
      else wordValue? (c :: rest)
    | [] => none

/-- The items of an array up to its bracket; a comma may follow the last one. -/
def items? (fuel depth : Nat) (s : List Char) : Option (List Toml × List Char) :=
  match fuel with
  | 0 => none
  | fuel + 1 =>
    match skipFiller s with
    | ']' :: rest => some ([], rest)
    | s => do
      let (item, rest) ← value? fuel depth s
      match skipFiller rest with
      | ',' :: rest =>
        let (items, rest) ← items? fuel depth rest
        return (item :: items, rest)
      | ']' :: rest => return ([item], rest)
      | _ => none

def members? (fuel depth : Nat) (done : Entries Inline) (s : List Char) :
    Option (Entries Inline × List Char) :=
  match fuel with
  | 0 => none
  | fuel + 1 => do
    let (path, rest) ← key? s
    match rest with
    | '=' :: rest =>
      let (value, rest) ← value? fuel depth (skipBlanks rest)
      let done ← Inline.insert value (path.getLastD "") path.dropLast done
      match skipBlanks rest with
      | ',' :: rest => members? fuel depth done rest
      | '\x7d' :: rest => return (done, rest)
      | _ => none
    | _ => none

end

/-! ## Whole lines -/

/-- The rest of a line that holds nothing more but blanks and a comment. -/
def lineEnd? (s : List Char) : Option (List Char) :=
  let s := skipBlanks s
  let s := if s.head? = some '#' then s.dropWhile isPrintable else s
  match s with
  | [] => some []
  | '\n' :: rest => some rest
  | _ => none

/-- One line, if it says something, and the lines after it. -/
def line? (s : List Char) : Option (Option Line × List Char) :=
  match skipBlanks s with
  | '[' :: '[' :: rest => do
    let (path, rest) ← key? rest
    match rest with
    | ']' :: ']' :: rest => return (some (.item path), ← lineEnd? rest)
    | _ => none
  | '[' :: rest => do
    let (path, rest) ← key? rest
    match rest with
    | ']' :: rest => return (some (.table path), ← lineEnd? rest)
    | _ => none
  | rest =>
    match lineEnd? rest with
    | some rest => some (none, rest)
    | none => do
      let (path, rest) ← key? rest
      match rest with
      | '=' :: rest =>
        let (value, rest) ← value? (2 * rest.length + 2) (depthLimit - 1) (skipBlanks rest)
        return (some (.assignment path.dropLast (path.getLastD "") value), ← lineEnd? rest)
      | _ => none

/-- All lines that say something. Every line takes a character at least. -/
def linesWith : Nat → List Char → Option (List Line)
  | _, [] => some []
  | 0, _ => none
  | fuel + 1, s => do
    let (line, rest) ← line? s
    return line.toList ++ (← linesWith fuel rest)

/-- The lines of a text. A mark of byte order at its start is passed over. -/
def lines? (s : List Char) : Option (List Line) :=
  let s := joinBreaks (if s.head? = some '\ufeff' then s.drop 1 else s)
  linesWith s.length s

end Phrasebook.Document.Toml
