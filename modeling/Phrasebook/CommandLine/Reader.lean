import Phrasebook.CommandLine.Level

/-!
# Reading command lines

The options and commands of the program.
-/

namespace Phrasebook.CommandLine

open Number

/-! ## Levels -/

def anyValue : Check := fun _ => none

def pathValue : Check := fun s => if s = "" then some .missingValue else none

def integerValue : Check := fun s =>
  if (readInt64 s.toList).isSome then none else some .invalidValue

def parameterCheck : Check := fun s =>
  match parseParameter s with
  | .ok _ => none
  | .error _ => some .invalidValue

/-- Options of the program and of all commands. -/
def sharedSwitches : List Switch :=
  [⟨"config", none, .value false pathValue⟩, ⟨"verbose", some 'v', .flag⟩,
    ⟨"help", some 'h', .help⟩]

def helpName : String := "help"

def programLevel : Level where
  switches := sharedSwitches ++ [⟨"version", some 'V', .version⟩]
  positionals := []
  commands := ["translate", "category", "rules", helpName]

def translateLevel : Level where
  switches := sharedSwitches ++
    [⟨"locale", some 'l', .value false anyValue⟩, ⟨"param", some 'p', .value true parameterCheck⟩,
      ⟨"dir", some 'd', .value true pathValue⟩, ⟨"wrapper", some 'w', .value false anyValue⟩]
  positionals := [⟨"identifier", false, anyValue⟩]
  commands := []

def categoryLevel : Level where
  switches := sharedSwitches
  positionals := [⟨"locale", false, anyValue⟩, ⟨"number", true, integerValue⟩]
  commands := []

def rulesLevel : Level where
  switches := sharedSwitches
  positionals := [⟨"template", false, anyValue⟩]
  commands := []

/-! ## Commands -/

def values (stored : Stored) (name : String) : List String :=
  (stored.filter fun (other, _) => other == name).map Prod.snd

def value? (stored : Stored) (name : String) : Option String := (values stored name).head?

def translateCommand (stored : Stored) : Command :=
  .translate
    { id := (value? stored "identifier").getD ""
      locale := value? stored "locale"
      parameters := (values stored "param").filterMap fun s => (parseParameter s).toOption
      directories := values stored "dir"
      placeholderStyle := value? stored "wrapper" }

def categoryCommand (stored : Stored) : Command :=
  .category ((value? stored "locale").getD "")
    (((value? stored "number").bind fun s => readInt64 s.toList).getD 0)

def rulesCommand (stored : Stored) : Command := .rules ((value? stored "template").getD "")

/-- The level of a command and the meaning of what is stored there. -/
def commandLevel : String → Level × (Stored → Command)
  | "translate" => (translateLevel, translateCommand)
  | "category" => (categoryLevel, categoryCommand)
  | _ => (rulesLevel, rulesCommand)

/-- Help about the command that some words name. -/
def helpAbout : List String → UsageError
  | [] => .help
  | name :: rest =>
    if name ∈ programLevel.commands ∧ rest.isEmpty then .help else .unknownCommand

/-- Read a command line. Of the shared options those of the command go before those of the
program. -/
def parse (words : List String) : Except UsageError Invocation := do
  match ← programLevel.read .start words with
  | (p, none) =>
    let p ← p.settle
    .error (if p.stored.isEmpty then .helpForNothing else .missingCommand)
  | (p, some (name, rest)) =>
    if name = helpName then .error (helpAbout rest)
    let (level, command) := commandLevel name
    let stored ← level.readAll rest
    let p ← p.settle
    let all := stored ++ p.stored
    return ⟨value? all "config", !(values all "verbose").isEmpty, command stored⟩

end Phrasebook.CommandLine
