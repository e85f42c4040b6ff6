import Phrasebook.Document.Yaml.Scalar
import Phrasebook.Document.Yaml.Token

/-!
# Tokens from text

Indentation opens and closes blocks, and a colon makes a key of what stands before it
on its line. What could become such a key is remembered with the number of tokens
before it, so that the tokens of a mapping can still be put there.
-/

namespace Phrasebook.Document.Yaml

/-- The start of something that a colon can make a key. -/
structure KeyStart where
  /-- How many tokens stand before it. -/
  position : Nat
  place : Placed
  /-- Whether only a key can stand here. -/
  required : Bool

/-- Tokens so far, with what the next ones depend on. -/
structure Lexer where
  rest : Remainder
  tokens : Array Token
  /-- The column of the innermost block; less than zero outside of all blocks. -/
  indent : Int
  /-- The columns of the blocks around it. -/
  outer : List Int
  /-- Whether a key may start here without an indicator. -/
  keyAllowed : Bool
  /-- What could become a key in the innermost brackets. -/
  keyStart : Option KeyStart
  /-- The same for all brackets around them, and for the blocks around these. -/
  outerKeyStarts : List (Option KeyStart)

namespace Lexer

/-- Whether the text is inside brackets. -/
def inFlow (l : Lexer) : Bool := !l.outerKeyStarts.isEmpty

def push (l : Lexer) (token : Token) : Lexer := { l with tokens := l.tokens.push token }

def skip (l : Lexer) (n : Nat) : Lexer := { l with rest := l.rest.drop n }

/-- Insert a token before others; the position is that of a token or the end. -/
def insert (l : Lexer) (position : Nat) (token : Token) : Lexer :=
  { l with tokens := l.tokens.insertIdxIfInBounds position token }

/-- Open a block at a column further right than the current one. Its token goes to a position. -/
def openBlock (l : Lexer) (column : Nat) (position : Nat) (token : Token) : Lexer :=
  if l.inFlow || (column : Int) ≤ l.indent then l
  else { l.insert position token with indent := column, outer := l.indent :: l.outer }

/-- Close the blocks further right than a column. -/
def closeBlocksTo (column : Int) (indent : Int) (tokens : Array Token) :
    List Int → Int × Array Token × List Int
  | [] => (indent, tokens, [])
  | next :: outer =>
    if column < indent then closeBlocksTo column next (tokens.push .blockEnd) outer
    else (indent, tokens, next :: outer)

def closeBlocks (l : Lexer) (column : Int) : Lexer :=
  if l.inFlow then l
  else
    let (indent, tokens, outer) := closeBlocksTo column l.indent l.tokens l.outer
    { l with indent, tokens, outer }

/-- How many bytes a key without an indicator can take. -/
def maxKeyLength : Nat := 1024

/-- A key start is over once its line is, or too much text has passed. -/
def isOver (here : Placed) (k : KeyStart) : Bool :=
  decide (k.place.line < here.line) || decide (k.place.offset + maxKeyLength < here.offset)

/-- Forget a key start that is over; if only a key could stand there this is an error. -/
def expire (here : Placed) : Option KeyStart → Option (Option KeyStart)
  | none => some none
  | some k => if isOver here k then (if k.required then none else some none) else some (some k)

def expireKeyStarts (l : Lexer) : Option Lexer := do
  let here := l.rest.here
  let keyStart ← expire here l.keyStart
  let outerKeyStarts ← l.outerKeyStarts.mapM (expire here)
  return { l with keyStart, outerKeyStarts }

/-- Forget the key start of the innermost brackets. -/
def dropKeyStart (l : Lexer) : Option Lexer :=
  match l.keyStart with
  | none => some l
  | some k => if k.required then none else some { l with keyStart := none }

/-- Remember that a key can start here. -/
def saveKeyStart (l : Lexer) : Option Lexer :=
  if l.keyAllowed then do
    let here := l.rest.here
    let l' ← l.dropKeyStart
    let required := !l.inFlow && l.indent == (here.column : Int)
    return { l' with keyStart := some ⟨l.tokens.size, here, required⟩ }
  else some l

/-- Skip blanks, comments, line breaks, and byte order marks at the starts of lines. Tabs count as
blanks only where no key can start. Outside of brackets a new line allows a key. -/
def skipToToken : Nat → Lexer → Lexer
  | 0, l => l
  | fuel + 1, l =>
    let rest : Remainder :=
      if l.rest.column == 0 && l.rest.next == '\ufeff' then l.rest.drop 1 else l.rest
    let tabs := l.inFlow || !l.keyAllowed
    let rest := (rest.skip fun c => c == ' ' || (tabs && c == '\t')).skipComment
    if isBreak rest.next then
      skipToToken fuel { l with rest := rest.drop 1, keyAllowed := l.keyAllowed || !l.inFlow }
    else { l with rest }

/-! ## Tokens -/

def endOfText (l : Lexer) : Option Lexer := do
  let l ← (l.closeBlocks (-1)).dropKeyStart
  return { l.push .endOfText with keyAllowed := false }

def directive (l : Lexer) : Option Lexer := do
  let l ← (l.closeBlocks (-1)).dropKeyStart
  let (token, rest) ← directiveToken (l.rest.drop 1)
  return { l.push token with rest, keyAllowed := false }

def documentMarker (l : Lexer) (token : Token) : Option Lexer := do
  let l ← (l.closeBlocks (-1)).dropKeyStart
  return { (l.push token).skip 3 with keyAllowed := false }

def openFlow (l : Lexer) (token : Token) : Option Lexer := do
  let l ← l.saveKeyStart
  return { (l.push token).skip 1 with
    keyAllowed := true, keyStart := none, outerKeyStarts := l.keyStart :: l.outerKeyStarts }

def closeFlow (l : Lexer) (token : Token) : Option Lexer := do
  let l ← l.dropKeyStart
  let l := match l.outerKeyStarts with
    | [] => l
    | keyStart :: outerKeyStarts => { l with keyStart, outerKeyStarts }
  return { (l.push token).skip 1 with keyAllowed := false }

def flowEntry (l : Lexer) : Option Lexer := do
  let l ← l.dropKeyStart
  return { (l.push .flowEntry).skip 1 with keyAllowed := true }

def blockEntry (l : Lexer) : Option Lexer := do
  if !l.inFlow && !l.keyAllowed then none
  let l ← (l.openBlock l.rest.column l.tokens.size .blockSequenceStart).dropKeyStart
  return { (l.push .blockEntry).skip 1 with keyAllowed := true }

def key (l : Lexer) : Option Lexer := do
  if !l.inFlow && !l.keyAllowed then none
  let l ← (l.openBlock l.rest.column l.tokens.size .blockMappingStart).dropKeyStart
  return { (l.push .key).skip 1 with keyAllowed := !l.inFlow }

def value (l : Lexer) : Option Lexer :=
  match l.keyStart with
  | some k =>
    let l := (l.insert k.position .key).openBlock k.place.column k.position .blockMappingStart
    some { (l.push .value).skip 1 with keyStart := none, keyAllowed := false }
  | none => do
    if !l.inFlow && !l.keyAllowed then none
    let l := l.openBlock l.rest.column l.tokens.size .blockMappingStart
    return { (l.push .value).skip 1 with keyAllowed := !l.inFlow }

/-- A token that can start a key. -/
def keyPart (l : Lexer) (read : Remainder → Option (Token × Remainder)) : Option Lexer := do
  let l ← l.saveKeyStart
  let (token, rest) ← read l.rest
  return { l.push token with rest, keyAllowed := false }

def anchor (l : Lexer) (token : String → Token) : Option Lexer :=
  l.keyPart fun text => do
    let (name, rest) ← anchorName (text.drop 1)
    return (token name, rest)

def quoted (l : Lexer) (quote : Char) : Option Lexer :=
  l.keyPart fun text => do
    let (chars, rest) ← quotedScalar quote (text.drop 1)
    return (.scalar false (String.ofList chars), rest)

def block (l : Lexer) (literal : Bool) : Option Lexer := do
  let l ← l.dropKeyStart
  let (chars, rest) ← blockScalar literal l.indent (l.rest.drop 1)
  return { l.push (.scalar false (String.ofList chars)) with rest, keyAllowed := true }

def plain (l : Lexer) : Option Lexer := do
  let l ← l.saveKeyStart
  let t ← plainScalar l.inFlow l.indent l.rest
  return { l.push (.scalar true (String.ofList t.chars)) with
    rest := t.rest, keyAllowed := t.brokeLine }

/-- Characters that cannot start a plain scalar. -/
def isIndicator (c : Char) : Bool := "-?:,[]\x7b\x7d#&*!|>'\"%@\x60".toList.contains c

/-- Whether a plain scalar can start with the next character. A dash, or outside of brackets a
question mark or colon, starts one if no blank follows. -/
def startsPlain (l : Lexer) : Bool :=
  let c := l.rest.next
  let following := l.rest.charAt 1
  !(isSpaceOrEnd c || isIndicator c) || (c == '-' && !isSpaceOrTab following) ||
    (!l.inFlow && (c == '?' || c == ':') && !isSpaceOrEnd following)

def step (l : Lexer) : Option Lexer := do
  let l ← (skipToToken (l.rest.length + 1) l).expireKeyStarts
  let l := l.closeBlocks l.rest.column
  let following := l.rest.charAt 1
  match l.rest.next with
  | '\x00' => l.endOfText
  | '[' => l.openFlow .flowSequenceStart
  | '\x7b' => l.openFlow .flowMappingStart
  | ']' => l.closeFlow .flowSequenceEnd
  | '\x7d' => l.closeFlow .flowMappingEnd
  | ',' => l.flowEntry
  | '*' => l.anchor .alias
  | '&' => l.anchor .anchor
  | '!' => l.keyPart (tagToken l.inFlow)
  | '\'' => l.quoted '\''
  | '"' => l.quoted '"'
  | c =>
    if c == '%' && l.rest.column == 0 then l.directive
    else if l.rest.column == 0 && l.rest.startsMarker '-' then l.documentMarker .documentStart
    else if l.rest.column == 0 && l.rest.startsMarker '.' then l.documentMarker .documentEnd
    else if c == '-' && isSpaceOrEnd following then l.blockEntry
    else if c == '?' && (l.inFlow || isSpaceOrEnd following) then l.key
    else if c == ':' && (l.inFlow || isSpaceOrEnd following) then l.value
    else if c == '|' && !l.inFlow then l.block true
    else if c == '>' && !l.inFlow then l.block false
    else if l.startsPlain then l.plain
    else none

/-- Read tokens up to the end of the text. -/
def run : Nat → Lexer → Option (Array Token)
  | 0, _ => none
  | fuel + 1, l => do
    let l ← l.step
    if l.tokens.back? = some .endOfText then return l.tokens else run fuel l

end Lexer

/-- The tokens of a document. Every token but the last takes a character at least. -/
def tokens? (s : List Char) : Option (List Token) :=
  let text := placeAll s
  (Lexer.run (text.length + 1) ⟨text, #[], -1, [], true, none, []⟩).map Array.toList

end Phrasebook.Document.Yaml
