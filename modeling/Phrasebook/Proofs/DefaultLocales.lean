import Phrasebook.Proofs.FailingSources
import Phrasebook.Proofs.Identifiers

/-!
# Locales of a run

A translator is used again and again, and its locale is changed now and then. The locale that a call
uses is the last one that was named and is not blank, be it by the call itself or before. A locale
that a call names is used as if it had been set for that call.
-/

namespace Phrasebook

variable {α σ τ : Type}

namespace Translator

inductive Command where
  | setLocale (locale : String)
  | translate (call : Call)

namespace Command

def locale? : Command → Option String
  | setLocale locale => some locale
  | translate _ => none

/-- The text that a command gives, if it gives one, and what is left of the translator and the
state. -/
def perform (lookup : Lookup τ) : Command → Translator × τ → Option String × Translator × τ
  | setLocale locale, (t, state) => (none, t.setLocale locale, state)
  | translate call, (t, state) =>
    let (text, state) := t.translate lookup call.id call.arguments call.locale state
    (some text, t, state)

end Command

def performAll (lookup : Lookup τ) :
    List Command → Translator × τ → List String × Translator × τ
  | [], s => ([], s)
  | command :: rest, s =>
    let (text, s) := command.perform lookup s
    let (texts, s) := performAll lookup rest s
    (text.toList ++ texts, s)

def isBlankLocale (locale : String) : Bool := locale.toList.all Text.isBlank

/-- The last locale that is set and is not blank, or else the one there was. -/
def lastSet (locale : String) (commands : List Command) : String :=
  ((commands.reverse.filterMap Command.locale?).find? fun locale => !isBlankLocale locale).getD
    locale

theorem performAll_append (lookup : Lookup τ) (commands rest : List Command)
    (s : Translator × τ) :
    performAll lookup (commands ++ rest) s =
      ((performAll lookup commands s).1 ++
          (performAll lookup rest (performAll lookup commands s).2).1,
        (performAll lookup rest (performAll lookup commands s).2).2) := by
  induction commands generalizing s with
  | nil => rfl
  | cons command commands ih =>
      rw [List.cons_append, performAll]
      simp only [ih, performAll, List.append_assoc]

/-! ## The locale of a translator -/

theorem named?_eq (locale : String) :
    named? locale = if isBlankLocale locale then none else some (Locale.normalize locale) := by
  cases hblank : isBlankLocale locale with
  | true => exact named?_of_blank (List.all_eq_true.mp hblank)
  | false =>
      apply named?_of_not_blank
      simpa [isBlankLocale] using hblank

theorem lastSet_concat (locale : String) (commands : List Command) (command : Command) :
    lastSet locale (commands ++ [command]) =
      match command with
      | .setLocale set => if isBlankLocale set then lastSet locale commands else set
      | .translate _ => lastSet locale commands := by
  rw [lastSet, List.reverse_append, List.reverse_singleton, List.singleton_append]
  cases command with
  | translate call =>
      rw [List.filterMap_cons_none rfl]
      rfl
  | setLocale set =>
      have hset : (Command.setLocale set).locale? = some set := rfl
      rw [List.filterMap_cons_some hset, List.find?_cons]
      cases hblank : isBlankLocale set <;> simp [lastSet, hblank]

theorem setLocale_eq (t : Translator) (locale : String) :
    t.setLocale locale = ⟨t.localeFor (some locale), t.wrapper⟩ := by
  rw [setLocale, localeFor, Option.bind_some]

theorem localeFor_setLocale (t : Translator) (locale : String) :
    (t.setLocale locale).localeFor none = t.localeFor (some locale) := by
  rw [localeFor, Option.bind_none, Option.getD_none, setLocale_eq]

/-- A locale that is named is used in its normal form, one that is blank leaves what there was. -/
theorem localeFor_eq {t : Translator} {current : String}
    (h : t.locale = Locale.normalize current) (locale : String) :
    t.localeFor (some locale) =
      Locale.normalize (if isBlankLocale locale then current else locale) := by
  rw [localeFor, Option.bind_some, named?_eq, h]
  cases isBlankLocale locale <;> rfl

theorem perform_translate_translator (lookup : Lookup τ) (call : Call) (s : Translator × τ) :
    ((Command.translate call).perform lookup s).2.1 = s.1 := rfl

theorem performAll_locale (lookup : Lookup τ) (locale : String) (wrapper : Wrapper) (start : τ)
    (commands : List Command) :
    (performAll lookup commands (ofLocale locale wrapper, start)).2.1.locale =
      Locale.normalize (lastSet locale commands) := by
  induction commands using List.reverseRecOn with
  | nil => rfl
  | append_singleton commands command ih =>
      rw [performAll_append, lastSet_concat]
      generalize performAll lookup commands (ofLocale locale wrapper, start) = result at ih
      obtain ⟨texts, t, state⟩ := result
      cases command with
      | translate call => exact ih
      | setLocale set =>
          simp only [performAll, Command.perform, setLocale_eq]
          exact localeFor_eq ih set

/-! ## Calls that name a locale -/

theorem translate_setLocale (lookup : Lookup τ) (t : Translator) (id : String)
    (arguments : Arguments) (locale : String) (state : τ) :
    (t.setLocale locale).translate lookup id arguments none state =
      t.translate lookup id arguments (some locale) state := by
  have hwrapper : (t.setLocale locale).wrapper = t.wrapper := by rw [setLocale_eq]
  rw [translate, translate, localeFor_setLocale, hwrapper]

theorem performAll_setLocale (lookup : Lookup τ) (s : Translator × τ) (id : String)
    (arguments : Arguments) (locale : String) :
    let set := performAll lookup [.setLocale locale, .translate ⟨id, arguments, none⟩] s
    let direct := performAll lookup [.translate ⟨id, arguments, some locale⟩] s
    set.1 = direct.1 ∧ set.2.2 = direct.2.2 := by
  simp only [performAll, Command.perform, translate_setLocale, Option.toList_none,
    List.nil_append, and_self]

/-! ## Loads of a call -/

theorem messages_logged (name : α) (loader : Loader σ) (domain locale : String) (s : Snapshots)
    (log : List (α × String × String)) (state : σ) :
    (Snapshots.messages (loader.logged name) domain locale s (log, state)).2.2.1 =
      log ++ if s.isLoaded domain locale then [] else [(name, domain, locale)] := by
  rw [Snapshots.messages, Snapshots.isLoaded]
  cases s.messages? domain locale with
  | some found => exact (List.append_nil log).symm
  | none => rfl

theorem translate_logged (name : α) (loader : Loader σ) (strategy : Strategy) (t : Translator)
    (id : String) (arguments : Arguments) (locale : Option String)
    (state : Snapshots × List (α × String × String) × σ) :
    (t.translate (.ofLoader (loader.logged name) strategy) id arguments locale state).2.2.1 =
      state.2.1 ++ if state.1.isLoaded (domainAndKey id).1 (t.localeFor locale) then []
        else [(name, (domainAndKey id).1, t.localeFor locale)] :=
  messages_logged name loader _ _ state.1 state.2.1 state.2.2

/-- After any commands the locale of a translator is the normal form of the last one that was set
and is not blank. A call does not change it. A call with a locale gives the text that it gives
without one when the locale is set before it, and leaves the same state behind; if messages are
loaded when they are first asked for, the loader is asked only for the domain of the call in the
locale of the call, in its normal form, or in that of the translator if the locale of the call is
blank, and not even for that if it is loaded. -/
theorem locale_of_run (locale : String) (wrapper : Wrapper) (commands : List Command) :
    (∀ (τ : Type) (lookup : Lookup τ) (start : τ),
      let s := (performAll lookup commands (ofLocale locale wrapper, start)).2
      s.1.locale = Locale.normalize (lastSet locale commands) ∧
      (∀ call, ((Command.translate call).perform lookup s).2.1 = s.1) ∧
      ∀ (id : String) (arguments : Arguments) (named : String),
        let direct := [Command.translate ⟨id, arguments, some named⟩]
        let set := [Command.setLocale named, Command.translate ⟨id, arguments, none⟩]
        (performAll lookup (commands ++ direct) (ofLocale locale wrapper, start)).1 =
            (performAll lookup (commands ++ set) (ofLocale locale wrapper, start)).1 ∧
          (performAll lookup (commands ++ direct) (ofLocale locale wrapper, start)).2.2 =
            (performAll lookup (commands ++ set) (ofLocale locale wrapper, start)).2.2) ∧
    ∀ (σ : Type) (loader : Loader σ) (strategy : Strategy)
      (start : Snapshots × List (Unit × String × String) × σ) (id : String)
      (arguments : Arguments) (named : String),
      let lookup := Lookup.ofLoader (loader.logged ()) strategy
      let s := (performAll lookup commands (ofLocale locale wrapper, start)).2
      let used := Locale.normalize (if isBlankLocale named then lastSet locale commands else named)
      (s.1.translate lookup id arguments (some named) s.2).2.2.1 =
        s.2.2.1 ++ if s.2.1.isLoaded (domainAndKey id).1 used then []
          else [((), (domainAndKey id).1, used)] := by
  constructor
  · intro τ lookup start s
    refine ⟨performAll_locale lookup locale wrapper start commands,
      fun call => perform_translate_translator lookup call s, fun id arguments named => ?_⟩
    obtain ⟨htexts, hstate⟩ := performAll_setLocale lookup s id arguments named
    intro direct set
    rw [performAll_append, performAll_append]
    exact ⟨congrArg (_ ++ ·) htexts.symm, hstate.symm⟩
  · intro σ loader strategy start id arguments named lookup s used
    have hlocale : s.1.locale = Locale.normalize (lastSet locale commands) :=
      performAll_locale lookup locale wrapper start commands
    rw [translate_logged, localeFor_eq hlocale]

/-- A call with a locale and a blank one that is set leave the locale that was set before. -/
example : Locale.normalize (lastSet "en-US"
    [.setLocale " ru-RU ", .translate ⟨"hello", [], some "de"⟩, .setLocale "\t"]) = "ru_RU" := by
  decide

end Translator

end Phrasebook
