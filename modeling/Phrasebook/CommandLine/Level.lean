import Phrasebook.CommandLine

/-!
# Levels of a command line

A command line is read level by level: options and arguments of the program up to the name
of a command, then those of the command. Words are stored only when the next option or
argument begins, or when the level ends; until then the last one is pending.
-/

namespace Phrasebook.CommandLine

abbrev Check := String → Option UsageError

/-- A place for values. -/
structure Slot where
  name : String
  repeatable : Bool
  check : Check

inductive Effect where
  | help
  | version
  | flag
  | value (repeatable : Bool) (check : Check)

/-- An option with its long name and perhaps a letter. -/
structure Switch where
  name : String
  letter : Option Char
  effect : Effect

/-- An argument, which may be written like a negative number or not. -/
structure Positional where
  name : String
  negative : Bool
  check : Check

structure Level where
  switches : List Switch
  positionals : List Positional
  commands : List String

/-- Values in the order in which they were stored; flags have empty ones. -/
abbrev Stored := List (String × String)

structure Progress where
  stored : Stored
  /-- An option or argument with its value, or without one so far. -/
  pending : Option (Slot × Option String)
  /-- Whether the next word is the value of the pending option. -/
  awaiting : Bool
  /-- The number of arguments seen. -/
  position : Nat
  /-- Whether all words that follow are arguments. -/
  escaped : Bool

namespace Progress

def start : Progress := ⟨[], none, false, 0, false⟩

def has (p : Progress) (name : String) : Bool := p.stored.any fun (other, _) => other == name

def store (p : Progress) (slot : Slot) (value : String) : Except UsageError Progress :=
  if !slot.repeatable && p.has slot.name then .error .conflict
  else
    match slot.check value with
    | some e => .error e
    | none => .ok { p with stored := p.stored ++ [(slot.name, value)] }

/-- Store what is pending. -/
def settle (p : Progress) : Except UsageError Progress :=
  match p.pending with
  | none => .ok p
  | some (_, none) => .error .missingValue
  | some (slot, some value) => { p with pending := none }.store slot value

/-- Let an option wait for the word that follows. -/
def await (p : Progress) (slot : Slot) : Except UsageError Progress := do
  return { ← p.settle with pending := some (slot, none), awaiting := true }

def supply (p : Progress) (word : String) : Progress :=
  { p with
    pending := p.pending.map fun (slot, _) => (slot, some word)
    awaiting := false }

/-- Take an option that comes with no value of its own. -/
def flip (p : Progress) (s : Switch) : Except UsageError Progress := do
  let p ← p.settle
  match s.effect with
  | .help => .error .help
  | .version => .error .version
  | .flag => return { ← p.store ⟨s.name, false, fun _ => none⟩ "" with awaiting := false }
  | .value .. => .error .missingValue

/-- Take the value that is attached to an option. -/
def attach (p : Progress) (slot : Slot) (value : String) : Except UsageError Progress := do
  return { ← (← p.settle).store slot value with awaiting := false }

end Progress

namespace Level

def long? (l : Level) (name : String) : Option Switch :=
  l.switches.find? fun s => s.name == name

def short? (l : Level) (letter : Char) : Option Switch :=
  l.switches.find? fun s => s.letter == some letter

/-- Take an option that is written with its long name. -/
def takeLong (l : Level) (p : Progress) (text : List Char) : Except UsageError Progress :=
  let (name, attached) :=
    match Text.splitOnce '=' text with
    | some (name, value) => (name, some (String.ofList value))
    | none => (text, none)
  match l.long? (String.ofList name) with
  | none => .error .unknownArgument
  | some s =>
    match s.effect, attached with
    | .value repeatable check, some value => p.attach ⟨s.name, repeatable, check⟩ value
    | .value repeatable check, none => p.await ⟨s.name, repeatable, check⟩
    | _, some _ => .error .unneededValue
    | _, none => p.flip s

/-- An equals sign may stand before a value that is attached to a letter. -/
def attachedText : List Char → String
  | '=' :: rest => String.ofList rest
  | rest => String.ofList rest

/-- Take options that are written as letters. The rest of the letters are the value of the first
one that takes one. -/
def takeShort (l : Level) (p : Progress) : List Char → Except UsageError Progress
  | [] => .ok p
  | letter :: rest =>
    match l.short? letter with
    | none => .error .unknownArgument
    | some s =>
      match s.effect with
      | .value repeatable check =>
        let slot : Slot := ⟨s.name, repeatable, check⟩
        if rest.isEmpty then p.await slot else p.attach slot (attachedText rest)
      | _ => do takeShort l (← p.flip s) rest

/-- The letters in front of an exponent. -/
def isExponentMark (c : Char) : Bool := c == 'e' || c == 'E'

/-- Whether letters spell a number: digits with at most one point and one exponent, neither of
them in front. -/
def spellsNumber (text : List Char) : Bool :=
  let mantissa := text.takeWhile fun c => !isExponentMark c
  let exponent := text.dropWhile fun c => !isExponentMark c
  let whole := mantissa.takeWhile (· ≠ '.')
  let fraction := mantissa.dropWhile (· ≠ '.')
  !whole.isEmpty && whole.all Char.isDigit && (fraction.drop 1).all Char.isDigit &&
    (exponent.isEmpty || (1 < exponent.length && (exponent.drop 1).all Char.isDigit))

/-- Whether a word with a dash in front can be the next argument. -/
def acceptsNegative (l : Level) (p : Progress) (text : List Char) : Bool :=
  spellsNumber text && (l.positionals[p.position]?.map (·.negative)).getD false

/-- The fault of a word for which there is no place. -/
def surplus (l : Level) (p : Progress) (word : String) : UsageError :=
  if l.commands.isEmpty || (p.escaped && word ∈ l.commands) then .unknownArgument
  else .unknownCommand

def takePositional (l : Level) (p : Progress) (word : String) : Except UsageError Progress :=
  match l.positionals[p.position]? with
  | none => .error (l.surplus p word)
  | some a => do
    let p ← p.settle
    return { p with
      pending := some (⟨a.name, false, a.check⟩, some word)
      awaiting := false
      position := p.position + 1 }

/-- Take a word that is neither an option nor a command. -/
def takePlain (l : Level) (p : Progress) (word : String) : Except UsageError Progress :=
  if p.awaiting then .ok (p.supply word) else l.takePositional p word

/-- Take a word before any escape. -/
def takeWord (l : Level) (p : Progress) (word : String) : Except UsageError Progress :=
  match word.toList with
  | ['-', '-'] => .ok { p with escaped := true, awaiting := false }
  | '-' :: '-' :: text => l.takeLong p text
  | '-' :: c :: text =>
    if l.acceptsNegative p (c :: text) then l.takePlain p word else l.takeShort p (c :: text)
  | _ => l.takePlain p word

/-- Read words up to the name of a command, which is given with the words behind it. -/
def read (l : Level) (p : Progress) :
    List String → Except UsageError (Progress × Option (String × List String))
  | [] => .ok (p, none)
  | word :: rest =>
    if p.escaped then do l.read (← l.takePositional p word) rest
    else if !p.awaiting && word ∈ l.commands then .ok (p, some (word, rest))
    else do l.read (← l.takeWord p word) rest

/-- Read a level that has no commands: all its arguments must be there. -/
def readAll (l : Level) (words : List String) : Except UsageError Stored := do
  let (p, _) ← l.read .start words
  let p ← p.settle
  if l.positionals.all fun a => p.has a.name then return p.stored else .error .missingArgument

end Level

end Phrasebook.CommandLine
