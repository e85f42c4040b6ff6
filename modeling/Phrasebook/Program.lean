import Phrasebook.CommandLine.Reader
import Phrasebook.Settings.Reader

/-!
# The program

What the program prints and with which code it exits, given its command line and what
stands in the files that it reads.
-/

namespace Phrasebook.Program

open CommandLine

/-- How a run ends: what it prints, and what it says about a failure. -/
structure Outcome where
  exitCode : UInt32
  output : String
  complaint : String
  deriving DecidableEq

def ofLines (lines : List String) : String := String.join (lines.map (· ++ "\n"))

/-- A run that prints lines. -/
def success (lines : List String) : Outcome := ⟨0, ofLines lines, ""⟩

/-- A run that could not do what it was asked for. -/
def failure (reason : String) : Outcome := ⟨1, "", ofLines ["Error: " ++ reason]⟩

def versionText : String := "glossa 0.1.0"

def helpText : List String :=
  ["Usage: glossa [OPTIONS] <COMMAND>", "", "Commands:",
    "  translate  Translate a message identifier",
    "  category   Print the plural category index of a number",
    "  rules      Print compiled plural rules in evaluation order"]

/-- The outcome of a command line that is no command. -/
def usage : UsageError → Outcome
  | .help => success helpText
  | .version => success [versionText]
  | .helpForNothing => ⟨2, "", ofLines helpText⟩
  | e => ⟨2, "", ofLines (("error: " ++ e.message) :: helpText)⟩

/-- Settings with those of a request put over them. -/
def overrideWith (request : Translate) (s : Settings) : Settings :=
  { s with
    directories := if request.directories.isEmpty then s.directories else request.directories
    placeholderStyle := request.placeholderStyle.getD s.placeholderStyle }

/-- Translate a message with given settings. -/
def translateWith (files : Files) (request : Translate) (s : Settings) :
    Except SettingsError String := do
  let t ← s.translator
  return (t.translate (s.lookup files) request.id request.parameters request.locale s.start).1

def translate (files : Files) (config : Option String) (request : Translate) :
    Except SettingsError String := do
  let s ← Settings.find files config
  translateWith files request (overrideWith request s)

def categoryLine (locale : String) (number : Int64) : String :=
  let locale := Locale.normalize locale
  toString (Plural.category number locale) ++ " (of " ++ toString (Plural.count locale) ++
    ")"

def execute (files : Files) (invocation : Invocation) : Outcome :=
  match invocation.command with
  | .translate request =>
    match translate files invocation.config request with
    | .ok text => success [text]
    | .error e => failure e.message
  | .category locale number => success [categoryLine locale number]
  | .rules template => success ((Variants.ofTemplate template).toList.map Variant.render)

/-! ## The files of a run -/

/-- Where settings can come from. -/
def settingsPaths (config : Option String) : List String :=
  let path := config.getD Settings.fileName
  [path, Files.Path.join path Settings.fileName]

/-- The files that a message can come from. -/
def catalogPaths (request : Translate) (s : Settings) : List String :=
  let t := Translator.ofLocale s.locale id
  let (domain, _) := Translator.domainAndKey request.id
  s.directories.map fun directory =>
    (CatalogDirectory.ofExtension directory s.ext).path domain (t.localeFor request.locale)

/-- The paths that a run looks at, once the files with settings are known. -/
def pathsAfter (files : Files) : Invocation → List String
  | ⟨config, _, .translate request⟩ =>
    match Settings.find files config with
    | .ok s => catalogPaths request (overrideWith request s)
    | .error _ => []
  | _ => []

def run (files : Files) (words : List String) : Outcome :=
  match CommandLine.parse words with
  | .ok invocation => execute files invocation
  | .error e => usage e

end Phrasebook.Program
