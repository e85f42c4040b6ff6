import Phrasebook.Argument
import Phrasebook.Number.Decimal
import Phrasebook.Text.Split

/-!
# Command lines

What a command line can ask for, and how the parameters of a message are written on it.
-/

namespace Phrasebook.CommandLine

open Number

/-- The parts of a request to translate a message. -/
structure Translate where
  id : String
  locale : Option String
  parameters : Arguments
  directories : List String
  placeholderStyle : Option String
  deriving DecidableEq

inductive Command where
  | translate (request : Translate)
  | category (locale : String) (number : Int64)
  | rules (template : String)
  deriving DecidableEq

/-- A command with the options that all commands share. -/
structure Invocation where
  config : Option String
  verbose : Bool
  command : Command
  deriving DecidableEq

inductive UsageError where
  | unknownArgument
  | unknownCommand
  | missingCommand
  | missingValue
  | invalidValue
  | missingArgument
  /-- An option given twice. -/
  | conflict
  | unneededValue
  | help
  /-- Help because nothing was asked for. -/
  | helpForNothing
  | version
  deriving DecidableEq

def UsageError.message : UsageError → String
  | unknownArgument => "unexpected argument found"
  | unknownCommand => "unrecognized subcommand"
  | missingCommand => "a subcommand is required but none was provided"
  | missingValue => "a value is required for an option but none was supplied"
  | invalidValue => "invalid value for an option or argument"
  | missingArgument => "a required argument was not provided"
  | conflict => "an option cannot be used multiple times"
  | unneededValue => "unexpected value for an option found"
  | help | helpForNothing => "help"
  | version => "version"

inductive ParameterError where
  | noValue (text : String)
  | emptyName
  deriving DecidableEq

def ParameterError.message : ParameterError → String
  | noValue text => "expected \x60name=value\x60, got \x60" ++ text ++ "\x60"
  | emptyName => "parameter name is empty"

/-- The value that a text stands for: an integer if it spells one, else a number if it spells one,
else itself. -/
def parameterValue (text : List Char) : Argument :=
  match readInt64 text with
  | some n => .int n
  | none =>
    match Binary64.read text with
    | some x => .float x
    | none => .text (String.ofList text)

/-- Read a parameter: a name, an equals sign and a value. Blanks around the name do not count. -/
def parseParameter (s : String) : Except ParameterError (String × Argument) :=
  match Text.splitOnce '=' s.toList with
  | none => .error (.noValue s)
  | some (name, value) =>
    let name := Text.trim name
    if name.isEmpty then .error .emptyName
    else .ok (String.ofList name, parameterValue value)

end Phrasebook.CommandLine
