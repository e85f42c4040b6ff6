import Phrasebook.Program
import Phrasebook.Proofs.SharedEntries

/-!
# The translate command

Whether a translation is printed depends on the settings alone: they have to be there, to name a
convention that is known and to have a directory, after the options of the command were put over
them. What stands in the files of catalogs can change the text and nothing else.
-/

namespace Phrasebook

namespace Settings

def fileAt (files : Files) (path : String) : String :=
  if (files path).isDirectory then Files.Path.join path fileName else path

def StandAt (files : Files) (path : String) (s : Settings) : Prop :=
  ∃ text, (files (fileAt files path)).text? = some text ∧ parse text = some s

/-- The settings that hold for a run, with a path for them or without one. -/
inductive Hold (files : Files) : Option String → Settings → Prop
  | given {path : String} {s : Settings} : s.StandAt files path → Hold files (some path) s
  | usual {s : Settings} :
      (files fileName).exists = true → s.StandAt files fileName → Hold files none s
  | default : (files fileName).exists = false → Hold files none .default

theorem load_eq_ok_iff {files : Files} {path : String} {s : Settings} :
    load files path = .ok s ↔ s.StandAt files path := by
  rw [StandAt, load, ← fileAt]
  cases htext : (files (fileAt files path)).text? with
  | none => simp
  | some text => cases hparse : parse text <;> simp [hparse]

theorem find_eq_ok_iff {files : Files} {config : Option String} {s : Settings} :
    find files config = .ok s ↔ Hold files config s := by
  cases config with
  | some path =>
      rw [find, load_eq_ok_iff]
      exact ⟨.given, fun | .given h => h⟩
  | none =>
      rw [find]
      cases hexists : (files fileName).exists with
      | true =>
          rw [if_pos rfl, load_eq_ok_iff]
          refine ⟨.usual hexists, fun h => ?_⟩
          cases h with
          | usual _ h => exact h
          | default hmissing => simp [hexists] at hmissing
      | false =>
          rw [if_neg Bool.false_ne_true]
          constructor
          · rintro ⟨⟩
            exact .default hexists
          · rintro (_ | ⟨hthere, -⟩ | -)
            · simp [hexists] at hthere
            · rfl

theorem translator_eq_ok_iff {s : Settings} {t : Translator} :
    s.translator = .ok t ↔ ∃ style, PlaceholderStyle.parse s.placeholderStyle = .ok style ∧
      s.directories ≠ [] ∧ t = .ofLocale s.locale style.wrapper := by
  rw [translator]
  cases PlaceholderStyle.parse s.placeholderStyle with
  | error message => simp
  | ok style =>
      cases s.directories with
      | nil => simp
      | cons first others => simp [eq_comm]

theorem translate_start (s : Settings) (files : Files) (t : Translator) (id : String)
    (arguments : Arguments) (locale : Option String) :
    (t.translate (s.lookup files) id arguments locale s.start).1 =
      t.textFrom .standard (s.given files (t.pair ⟨id, arguments, locale⟩))
        ⟨id, arguments, locale⟩ := by
  have hanswers : t.answers (s.lookup files) [⟨id, arguments, locale⟩] s.start =
      [t.textFrom .standard (s.given files (t.pair ⟨id, arguments, locale⟩))
        ⟨id, arguments, locale⟩] := by
    rw [lookup, loader]
    cases s.cache.enabled with
    | false => exact s.answers_layers files t [⟨id, arguments, locale⟩]
    | true =>
        apply answers_cachedLayers
        -- Nothing was asked for before, so there is no entry to be found.
        rintro ⟨before, pair, after, hsplit, -, -, -, used, since, hused, -⟩
        obtain ⟨rfl, -⟩ := List.cons_eq_append_iff.mp hsplit |>.resolve_right (by simp)
        simp at hused
  exact List.singleton_inj.mp hanswers

end Settings

namespace Program

open CommandLine

/-- A request can be answered: there are settings, the convention of the request, or else theirs,
is known, and there are directories in the request or in the settings. -/
structure Ready (files : Files) (config : Option String) (request : Translate) (s : Settings)
    (style : PlaceholderStyle) : Prop where
  hold : Settings.Hold files config s
  parse_style :
    PlaceholderStyle.parse (request.placeholderStyle.getD s.placeholderStyle) = .ok style
  directories_ne_nil : request.directories ≠ [] ∨ s.directories ≠ []

/-- The text of a request, from the catalog that the directories hold for its pair. Files that
cannot be used are passed over. -/
def rendered (files : Files) (request : Translate) (s : Settings) (style : PlaceholderStyle) :
    String :=
  let t := Translator.ofLocale s.locale style.wrapper
  let call : Translator.Call := ⟨request.id, request.parameters, request.locale⟩
  t.textFrom .standard ((overrideWith request s).given files (t.pair call)) call

theorem directories_overrideWith_ne_nil_iff (request : Translate) (s : Settings) :
    (overrideWith request s).directories ≠ [] ↔ request.directories ≠ [] ∨ s.directories ≠ [] := by
  rw [overrideWith]
  cases request.directories <;> simp

theorem translateWith_of_translator {s : Settings} {t : Translator} (ht : s.translator = .ok t)
    (files : Files) (request : Translate) :
    translateWith files request s = .ok (t.textFrom .standard
      (s.given files (t.pair ⟨request.id, request.parameters, request.locale⟩))
      ⟨request.id, request.parameters, request.locale⟩) := by
  rw [← s.translate_start files t, translateWith, ht]
  rfl

theorem translateWith_of_error {s : Settings} {e : SettingsError} (ht : s.translator = .error e)
    (files : Files) (request : Translate) : translateWith files request s = .error e := by
  rw [translateWith, ht]
  rfl

theorem translate_of_find {files : Files} {config : Option String} {s : Settings}
    (hfind : Settings.find files config = .ok s) (request : Translate) :
    translate files config request = translateWith files request (overrideWith request s) := by
  simp only [translate, hfind, bind, Except.bind]

theorem translate_of_error {files : Files} {config : Option String} {e : SettingsError}
    (hfind : Settings.find files config = .error e) (request : Translate) :
    translate files config request = .error e := by
  rw [translate, hfind]
  rfl

theorem translate_eq_ok_iff {files : Files} {config : Option String} {request : Translate}
    {text : String} :
    translate files config request = .ok text ↔
      ∃ s style, Ready files config request s style ∧ text = rendered files request s style := by
  constructor
  · intro h
    cases hfind : Settings.find files config with
    | error e => simp [translate_of_error hfind] at h
    | ok s =>
        rw [translate_of_find hfind] at h
        cases ht : (overrideWith request s).translator with
        | error e => simp [translateWith_of_error ht] at h
        | ok t =>
            rw [translateWith_of_translator ht] at h
            obtain ⟨style, hstyle, hdirectories, rfl⟩ := Settings.translator_eq_ok_iff.mp ht
            rw [directories_overrideWith_ne_nil_iff] at hdirectories
            exact ⟨s, style, ⟨Settings.find_eq_ok_iff.mp hfind, hstyle, hdirectories⟩,
              (Except.ok.inj h).symm⟩
  · rintro ⟨s, style, hready, rfl⟩
    have hdirectories :=
      (directories_overrideWith_ne_nil_iff request s).mpr hready.directories_ne_nil
    have ht : (overrideWith request s).translator = .ok (.ofLocale s.locale style.wrapper) :=
      Settings.translator_eq_ok_iff.mpr ⟨style, hready.parse_style, hdirectories, rfl⟩
    rw [translate_of_find (Settings.find_eq_ok_iff.mpr hready.hold), translateWith_of_translator ht]
    rfl

theorem ofLines_singleton (line : String) : ofLines [line] = line ++ "\n" := by
  simp [ofLines, String.join]

section Run

variable {words : List String} {config : Option String} {verbose : Bool} {request : Translate}

theorem run_eq_of_parse (h : CommandLine.parse words = .ok ⟨config, verbose, .translate request⟩)
    (files : Files) :
    run files words =
      match translate files config request with
      | .ok text => success [text]
      | .error e => failure e.message := by
  rw [run, h]
  rfl

theorem find_congr {files others : Files}
    (h : ∀ path ∈ settingsPaths config, files path = others path) :
    Settings.find files config = Settings.find others config := by
  have hload : ∀ path, config.getD Settings.fileName = path →
      files path = others path ∧ Settings.load files path = Settings.load others path := by
    rintro path rfl
    have hfile := h _ List.mem_cons_self
    have hinside := h _ (List.mem_cons_of_mem _ List.mem_cons_self)
    refine ⟨hfile, ?_⟩
    rw [Settings.load, Settings.load, hfile]
    cases (others (config.getD Settings.fileName)).isDirectory with
    | true => simp only [if_true, hinside]
    | false => simp only [Bool.false_eq_true, if_false, hfile]
  cases config with
  | some path => exact (hload path rfl).2
  | none =>
      obtain ⟨hfile, hsame⟩ := hload Settings.fileName rfl
      rw [Settings.find, Settings.find, hsame, hfile]

theorem exitCode_run_eq_zero_iff
    (h : CommandLine.parse words = .ok ⟨config, verbose, .translate request⟩) (files : Files) :
    (run files words).exitCode = 0 ↔ ∃ s style, Ready files config request s style := by
  rw [run_eq_of_parse h]
  cases htranslate : translate files config request with
  | ok text =>
      obtain ⟨s, style, hready, -⟩ := translate_eq_ok_iff.mp htranslate
      exact ⟨fun _ => ⟨s, style, hready⟩, fun _ => rfl⟩
  | error e =>
      constructor
      · intro hcode
        exact absurd hcode (by decide : (1 : UInt32) ≠ 0)
      · rintro ⟨s, style, hready⟩
        rw [translate_eq_ok_iff.mpr ⟨s, style, hready, rfl⟩] at htranslate
        cases htranslate

theorem isReady_congr {files others : Files}
    (h : ∀ path ∈ settingsPaths config, files path = others path) :
    (∃ s style, Ready files config request s style) ↔
      ∃ s style, Ready others config request s style := by
  have hfind := find_congr h
  constructor
  · rintro ⟨s, style, hhold, hstyle, hdirectories⟩
    rw [← Settings.find_eq_ok_iff, hfind, Settings.find_eq_ok_iff] at hhold
    exact ⟨s, style, hhold, hstyle, hdirectories⟩
  · rintro ⟨s, style, hhold, hstyle, hdirectories⟩
    rw [← Settings.find_eq_ok_iff, ← hfind, Settings.find_eq_ok_iff] at hhold
    exact ⟨s, style, hhold, hstyle, hdirectories⟩

/-- A translation is printed on one line, with success, exactly if the settings allow it; else the
run fails and prints nothing. So the code of a run does not depend on the files of catalogs. -/
theorem run_translate_iff_ready
    (h : CommandLine.parse words = .ok ⟨config, verbose, .translate request⟩) :
    (∀ files,
      ((run files words).exitCode = 0 ↔ ∃ s style, Ready files config request s style) ∧
      (∀ s style, Ready files config request s style →
        (run files words).output = rendered files request s style ++ "\n") ∧
      ((run files words).exitCode ≠ 0 →
        (run files words).exitCode = 1 ∧ (run files words).output = "")) ∧
    ∀ files others, (∀ path ∈ settingsPaths config, files path = others path) →
      (run files words).exitCode = (run others words).exitCode := by
  have hcode : ∀ files, (run files words).exitCode = 0 ∨
      (run files words).exitCode = 1 ∧ (run files words).output = "" := by
    intro files
    rw [run_eq_of_parse h]
    cases translate files config request with
    | ok text => exact Or.inl rfl
    | error e => exact Or.inr ⟨rfl, rfl⟩
  refine ⟨fun files => ⟨exitCode_run_eq_zero_iff h files, ?_, ?_⟩, ?_⟩
  · intro s style hready
    rw [run_eq_of_parse h, translate_eq_ok_iff.mpr ⟨s, style, hready, rfl⟩]
    exact ofLines_singleton _
  · exact (hcode files).resolve_left
  · intro files others hsame
    have hiff : (run files words).exitCode = 0 ↔ (run others words).exitCode = 0 := by
      rw [exitCode_run_eq_zero_iff h, exitCode_run_eq_zero_iff h, isReady_congr hsame]
    rcases hcode files with hfiles | ⟨hfiles, -⟩
    · rw [hfiles, hiff.mp hfiles]
    · rcases hcode others with hothers | ⟨hothers, -⟩
      · rw [hothers, hiff.mpr hothers]
      · rw [hfiles, hothers]

end Run

/-- The convention of the settings is unknown and that of the command line is not. A directory that
stands in the place of a catalog has no influence. -/
theorem run_translate_iff_ready_directory_for_catalog :
    let words := ["translate", "-d", "lang", "-w", "Symfony", "-p", "user=Ada", "Hi %user%"]
    let request : Translate :=
      ⟨"Hi %user%", none, [("user", .text "Ada")], ["lang"], some "Symfony"⟩
    let toml := "[translator]\nwrapper = 'curly'\n"
    let files : Files := .ofList
      [("glossa.toml", .file toml.toUTF8), ("lang/default/en_US.yaml", .directory)]
    let others : Files := .ofList [("glossa.toml", .file toml.toUTF8)]
    let s : Settings := { Settings.default with placeholderStyle := "curly" }
    CommandLine.parse words = .ok ⟨none, false, .translate request⟩ ∧
    Ready files none request s .percent ∧ (run files words).exitCode = 0 ∧
    (run files words).output = rendered files request s .percent ++ "\n" ∧
    (∀ path ∈ settingsPaths none, files path = others path) ∧
    (run others words).exitCode = 0 := by
  intro words request toml files others s
  have hparse : CommandLine.parse words = .ok ⟨none, false, .translate request⟩ := by
    decide +kernel
  have hsettings : Settings.parse toml = some s := by decide +kernel
  have hfile : (files Settings.fileName).exists = true ∧
      (files (Settings.fileAt files Settings.fileName)).text? = some toml :=
    ⟨rfl, Probe.fromUTF8?_toUTF8 toml⟩
  have hhold : Settings.Hold files none s :=
    .usual hfile.1 ⟨toml, hfile.2, hsettings⟩
  have hstyle : PlaceholderStyle.parse "Symfony" = .ok .percent := by decide +kernel
  have hready : Ready files none request s .percent :=
    ⟨hhold, hstyle, Or.inl (List.cons_ne_nil _ _)⟩
  have hsame : ∀ path ∈ settingsPaths none, files path = others path := by
    intro path hpath
    simp only [settingsPaths, List.mem_cons, List.not_mem_nil, or_false] at hpath
    rcases hpath with rfl | rfl <;> rfl
  obtain ⟨hrun, hcode⟩ := run_translate_iff_ready hparse
  obtain ⟨hzero, houtput, -⟩ := hrun files
  have hfiles := hzero.mpr ⟨s, .percent, hready⟩
  exact ⟨hparse, hready, hfiles, houtput s .percent hready, hsame,
    (hcode files others hsame).symm.trans hfiles⟩

end Program

end Phrasebook
