import Phrasebook.Argument
import Phrasebook.Locale
import Phrasebook.Placeholder
import Phrasebook.Snapshots
import Phrasebook.Substitution

/-!
# Translators

A translator finds the text of a message by its identifier and puts arguments into it.
A message without text is its own identifier, so translating never fails.
-/

namespace Phrasebook

open Number

/-- Finds the text of a message by key, domain and locale, in the form for a number. -/
abbrev Lookup (τ : Type) :=
  String → String → String → Option Binary64 → τ → Option String × τ

/-- Messages that are kept once loaded, as a way to find texts. -/
def Lookup.ofLoader {σ : Type} (loader : Loader σ) (strategy : Strategy) :
    Lookup (Snapshots × σ) :=
  fun key domain locale number (s, state) =>
    let (selection, s, state) := Snapshots.get loader strategy key domain locale number s state
    (selection.text, s, state)

/-- The locale used where none is given, and the form of placeholders. -/
structure Translator where
  locale : String
  wrapper : Wrapper

namespace Translator

/-- The domain of identifiers that name none. -/
def defaultDomain : String := "default"

/-- The argument whose number selects the variant. -/
def countName : String := "count"

/-- The argument that stands for the separator of variants unless it is given. -/
def separatorName : String := "I"

def ofLocale (locale : String) (wrapper : Wrapper) : Translator :=
  ⟨Locale.normalize locale, wrapper⟩

/-- The normal form of a locale that is not blank. -/
def named? (locale : String) : Option String :=
  let locale := Locale.normalize locale
  if locale = "" then none else some locale

/-- Change the locale used where none is given. A blank locale changes nothing. -/
def setLocale (t : Translator) (locale : String) : Translator :=
  { t with locale := (named? locale).getD t.locale }

def localeFor (t : Translator) (locale : Option String) : String :=
  (locale.bind named?).getD t.locale

/-- The domain and the key of an identifier: they are separated by the first colon. -/
def domainAndKey (id : String) : String × String :=
  match Text.splitOnce ':' id.toList with
  | some (domain, key) => (String.ofList domain, String.ofList key)
  | none => (defaultDomain, id)

/-- The number of the last argument that is called `count`. -/
def count? (arguments : Arguments) : Option Binary64 :=
  (arguments.reverse.lookup countName).bind Argument.number?

/-- The tokens to be replaced, with their texts. -/
def replacements (wrapper : Wrapper) (arguments : Arguments) : Substitution.Replacements :=
  (wrapper separatorName, String.ofList [variantSeparator]) ::
    arguments.map fun (name, value) => (wrapper name, value.render)

/-- The text of a message with its arguments put in. -/
def translate {τ : Type} (lookup : Lookup τ) (t : Translator) (id : String)
    (arguments : Arguments) (locale : Option String) (state : τ) : String × τ :=
  let (domain, key) := domainAndKey id
  let (text, state) := lookup key domain (t.localeFor locale) (count? arguments) state
  (Substitution.substitute (text.getD id) (replacements t.wrapper arguments), state)

/-- Translate a message that holds its arguments. -/
def translateMessage {τ : Type} (lookup : Lookup τ) (t : Translator) (m : Message)
    (locale : Option String) (state : τ) : String × τ :=
  t.translate lookup m.id m.arguments locale state

end Translator

end Phrasebook
