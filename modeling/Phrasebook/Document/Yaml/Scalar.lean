import Phrasebook.Document.Yaml.Placed
import Phrasebook.Text.Hex

/-!
# Scalar texts

The three ways of writing a scalar: plain, in quotes, and as a block of lines. Line
breaks inside plain and quoted scalars are folded to spaces.
-/

namespace Phrasebook.Document.Yaml

/-! ## Folding -/

/-- The blanks and line breaks between two words of a scalar. -/
structure Gap where
  /-- Blanks before the first line break. -/
  spaces : List Char
  /-- Whether a line was ended, be it by an escaped line break. -/
  broken : Bool
  /-- The line break that ended it. -/
  first : Option Char
  /-- The line breaks after that. -/
  others : List Char

namespace Gap

def empty : Gap := ⟨[], false, none, []⟩

/-- What a gap stands for: its blanks on one line, one space for one line break, and all line
breaks but the first otherwise. -/
def fold (g : Gap) : List Char :=
  if !g.broken then g.spaces
  else
    match g.first with
    | some '\n' => if g.others.isEmpty then [' '] else g.others
    | some c => c :: g.others
    | none => g.others

end Gap

/-- Read a gap. After a line break a tab before the given column is an error. -/
def readGap (tabLimit : Int) (g : Gap) : Remainder → Option (Gap × Remainder)
  | [] => some (g, [])
  | p :: rest =>
    if isSpaceOrTab p.char then
      if g.broken then
        if p.char == '\t' && p.column < tabLimit then none else readGap tabLimit g rest
      else readGap tabLimit ⟨g.spaces ++ [p.char], false, none, []⟩ rest
    else if isBreak p.char then
      if g.broken then readGap tabLimit { g with others := g.others ++ [p.char] } rest
      else readGap tabLimit ⟨[], true, some p.char, []⟩ rest
    else some (g, p :: rest)

/-! ## Plain scalars -/

/-- Indicators that end a plain scalar inside brackets. -/
def isFlowIndicator (c : Char) : Bool :=
  c == ',' || c == '[' || c == ']' || c == '\x7b' || c == '\x7d'

/-- A word of a plain scalar. Inside brackets a colon right before an indicator is an error. -/
def plainWord (flow : Bool) : Remainder → Option (List Char × Remainder)
  | [] => some ([], [])
  | p :: rest =>
    let following := Remainder.next rest
    if isSpaceOrEnd p.char then some ([], p :: rest)
    else if flow && p.char == ':' && (isFlowIndicator following || following == '?') then none
    else if (p.char == ':' && isSpaceOrEnd following) || (flow && isFlowIndicator p.char) then
      some ([], p :: rest)
    else do
      let (word, rest) ← plainWord flow rest
      return (p.char :: word, rest)

/-- A scalar's text, whether a line break was passed after it, and what follows. -/
structure ScalarText where
  chars : List Char
  brokeLine : Bool
  rest : Remainder

/-- The words of a plain scalar with the gaps between them. -/
def plainWords (flow : Bool) (indent : Int) : Nat → Gap → Remainder → Option ScalarText
  | 0, _, _ => none
  | fuel + 1, gap, text =>
    if text.atMarker || text.next == '#' then some ⟨[], gap.broken, text⟩
    else do
      let (word, rest) ← plainWord flow text
      let (joined, gap) := if word.isEmpty then ([], gap) else (gap.fold ++ word, .empty)
      if !(isSpaceOrTab rest.next || isBreak rest.next) then return ⟨joined, gap.broken, rest⟩
      let (gap, rest) ← readGap indent gap rest
      if !flow && rest.column < indent then return ⟨joined, gap.broken, rest⟩
      let more ← plainWords flow indent fuel gap rest
      return { more with chars := joined ++ more.chars }

/-- A plain scalar in a block with the given indentation, or inside brackets. -/
def plainScalar (flow : Bool) (indent : Int) (text : Remainder) : Option ScalarText :=
  plainWords flow (indent + 1) (text.length + 1) .empty text

/-! ## Quoted scalars -/

/-- A character written with a backslash and one other character. -/
def simpleEscape? : Char → Option Char
  | '0' => some '\x00'
  | 'a' => some '\x07'
  | 'b' => some '\x08'
  | 't' => some '\t'
  | '\t' => some '\t'
  | 'n' => some '\n'
  | 'v' => some '\x0b'
  | 'f' => some '\x0c'
  | 'r' => some '\r'
  | 'e' => some '\x1b'
  | ' ' => some ' '
  | '"' => some '"'
  | '/' => some '/'
  | '\\' => some '\\'
  | 'N' => some '\x85'
  | '_' => some '\xa0'
  | 'L' => some '\u2028'
  | 'P' => some '\u2029'
  | _ => none

/-- How many hexadecimal digits follow an escape letter. -/
def escapeLength? : Char → Option Nat
  | 'x' => some 2
  | 'u' => some 4
  | 'U' => some 8
  | _ => none

/-- The character of an escape after its backslash, and the number of characters it takes. -/
def escape? (text : Remainder) : Option (Char × Nat) :=
  match escapeLength? text.next with
  | some n => do
    let value ← Text.hexValue? (((text.drop 1).take n).map (·.char))
    return (← Text.scalar? value, n + 1)
  | none => do return (← simpleEscape? text.next, 1)

/-- A word of a quoted scalar, and whether an escaped line break ended it. -/
def quotedWord (quote : Char) : Remainder → Option (List Char × Bool × Remainder)
  | [] => none
  | p :: rest =>
    if isSpaceOrEnd p.char then some ([], false, p :: rest)
    else if quote == '\'' && p.char == '\'' && Remainder.next rest == '\'' then do
      let (word, broken, rest) ← quotedWord quote (rest.drop 1)
      return ('\'' :: word, broken, rest)
    else if p.char == quote then some ([], false, p :: rest)
    else if quote == '"' && p.char == '\\' then
      if isBreak (Remainder.next rest) then some ([], true, rest.drop 1)
      else do
        let (c, count) ← escape? rest
        let (word, broken, rest) ← quotedWord quote (rest.drop count)
        return (c :: word, broken, rest)
    else do
      let (word, broken, rest) ← quotedWord quote rest
      return (p.char :: word, broken, rest)
termination_by text => text.length
decreasing_by all_goals (simp only [List.length_cons, List.length_drop]; omega)

/-- The words of a quoted scalar with the gaps between them, up to the closing quote. -/
def quotedWords (quote : Char) : Nat → Remainder → Option (List Char × Remainder)
  | 0, _ => none
  | fuel + 1, text =>
    if text.atMarker || text.next == endChar then none
    else do
      let (word, broken, rest) ← quotedWord quote text
      if rest.next == quote then return (word, rest.drop 1)
      let (gap, rest) ← readGap 0 { Gap.empty with broken } rest
      let (more, rest) ← quotedWords quote fuel rest
      return (word ++ gap.fold ++ more, rest)

/-- A quoted scalar after its opening quote. -/
def quotedScalar (quote : Char) (text : Remainder) : Option (List Char × Remainder) :=
  quotedWords quote (text.length + 1) text

/-! ## Block scalars -/

/-- What happens to the line breaks at the end of a block. -/
inductive Chomping where
  | strip
  | clip
  | keep
  deriving DecidableEq

def chomping? : Char → Option Chomping
  | '-' => some .strip
  | '+' => some .keep
  | _ => none

/-- An indentation given by a digit; zero is an error. -/
def indentDigit? (c : Char) : Option (Option Nat) :=
  if c.isDigit then (if c == '0' then none else some (some (c.toNat - '0'.toNat))) else some none

/-- The chomping and the indentation in the header of a block, in either order. -/
def blockHeader (text : Remainder) : Option (Chomping × Option Nat × Remainder) :=
  match chomping? text.next with
  | some chomping => do
    match ← indentDigit? (text.charAt 1) with
    | some n => return (chomping, some n, text.drop 2)
    | none => return (chomping, none, text.drop 1)
  | none => do
    match ← indentDigit? text.next with
    | none => return (.clip, none, text)
    | some n =>
      match chomping? (text.charAt 1) with
      | some chomping => return (chomping, some n, text.drop 2)
      | none => return (.clip, some n, text.drop 1)

/-- Skip indentation and empty lines. Gives the greatest column seen and the line breaks. Without
an indentation all leading spaces count as indentation; a tab in it is an error. -/
def blockBreaks (indent : Option Nat) (widest : Nat) :
    Remainder → Option (Nat × List Char × Remainder)
  | [] => some (widest, [], [])
  | p :: rest =>
    let inside := match indent with
      | none => true
      | some n => decide (p.column < n)
    if inside && p.char == ' ' then blockBreaks indent widest rest
    else
      let widest := max widest p.column
      if inside && p.char == '\t' then none
      else if isBreak p.char then do
        let (widest, breaks, rest) ← blockBreaks indent widest rest
        return (widest, p.char :: breaks, rest)
      else some (widest, [], p :: rest)

/-- The lines of a block so far: their text, the line break after the last of them, the empty
lines after that, and whether the last line starts with a blank. -/
structure BlockLines where
  chars : List Char
  lastBreak : List Char
  emptyLines : List Char
  startedBlank : Bool

/-- Append a line of a block. Between two lines that do not start with blanks a folded block has
a space for a single line break. -/
def BlockLines.push (literal : Bool) (b : BlockLines) (line : List Char) (lineBreak : List Char)
    (emptyLines : List Char) : BlockLines :=
  let startsBlank := (line.head?.map isSpaceOrTab).getD false
  let join :=
    if !literal && b.lastBreak == ['\n'] && !b.startedBlank && !startsBlank then
      if b.emptyLines.isEmpty then [' '] else []
    else b.lastBreak
  ⟨b.chars ++ join ++ b.emptyLines ++ line, lineBreak, emptyLines, startsBlank⟩

/-- Read the lines of a block with a known indentation. -/
def blockLines (literal : Bool) (indent : Nat) : Nat → BlockLines → Remainder →
    Option (BlockLines × Remainder)
  | 0, _, _ => none
  | fuel + 1, b, text =>
    if text.column == indent && text.next != endChar then do
      let (line, rest) := text.span fun c => !isBreakOrEnd c
      let (lineBreak, rest) := if isBreak rest.next then ([rest.next], rest.drop 1) else ([], rest)
      let (_, emptyLines, rest) ← blockBreaks (some indent) 0 rest
      blockLines literal indent fuel (b.push literal line lineBreak emptyLines) rest
    else some (b, text)

/-- A block scalar after its indicator, in a block with the given indentation. -/
def blockScalar (literal : Bool) (parent : Int) (text : Remainder) :
    Option (List Char × Remainder) := do
  let (chomping, increment, rest) ← blockHeader text
  let rest ← rest.endLine?
  let fixed := increment.map fun n => if 0 ≤ parent then parent.toNat + n else n
  let (widest, breaks, rest) ← blockBreaks fixed 0 rest
  let indent := fixed.getD (max (max widest (parent + 1).toNat) 1)
  let (b, rest) ← blockLines literal indent (rest.length + 1) ⟨[], [], breaks, false⟩ rest
  return (b.chars ++ (if chomping = .strip then [] else b.lastBreak) ++
    (if chomping = .keep then b.emptyLines else []), rest)

end Phrasebook.Document.Yaml
