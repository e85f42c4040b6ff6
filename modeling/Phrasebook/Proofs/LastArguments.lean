import Mathlib.Data.List.Perm.Basic
import Phrasebook.Proofs.OverlaidEntries
import Phrasebook.Proofs.Segmentation
import Phrasebook.Translator

/-!
# Arguments as a map

Of the arguments with one name the last one counts, both for the form of a message and for its
text. If no two names have the same placeholder, a translation depends on nothing else about the
arguments.
-/

namespace Phrasebook

open Substitution

def Arguments.last? (arguments : Arguments) (name : String) : Option Argument :=
  arguments.reverse.lookup name

theorem Arguments.last?_perm {arguments others : Arguments} (h : arguments.Perm others)
    (hnames : (arguments.map Prod.fst).Nodup) (name : String) :
    arguments.last? name = others.last? name := by
  have hothers : (others.map Prod.fst).Nodup := (h.map Prod.fst).nodup_iff.mp hnames
  rw [last?, last?, Entries.lookup_reverse hnames, Entries.lookup_reverse hothers]
  ext value
  constructor
  · intro hvalue
    exact Entries.get?_of_mem hothers (h.mem_iff.mp (Entries.mem_of_get? hvalue))
  · intro hvalue
    exact Entries.get?_of_mem hnames (h.mem_iff.mpr (Entries.mem_of_get? hvalue))

theorem Wrapper.injective_around (before after : String) :
    Function.Injective (Wrapper.around before after) := by
  intro name other h
  have hlists := congrArg String.toList h
  rw [← String.toList_inj]
  simpa [Wrapper.around] using hlists

theorem PlaceholderStyle.injective_wrapper (style : PlaceholderStyle) :
    Function.Injective style.wrapper := by
  cases style with
  | percent => exact Wrapper.injective_around "%" "%"
  | colon => exact Wrapper.injective_around ":" ""

namespace Translator

/-- The text that is put in for a name: that of the last argument with the name, or the separator
of variants for its own name. -/
def filling? (arguments : Arguments) (name : String) : Option String :=
  ((arguments.last? name).map Argument.render).or (if name = separatorName then some "|" else none)

def tokens (wrapper : Wrapper) (arguments : Arguments) : Finset String :=
  ((separatorName :: arguments.map Prod.fst).map wrapper).toFinset.erase ""

theorem count?_eq (arguments : Arguments) :
    count? arguments = (arguments.last? countName).bind Argument.number? := rfl

theorem lookup_map_wrapper {wrapper : Wrapper} (h : Function.Injective wrapper)
    (arguments : List (String × Argument)) (name : String) :
    (arguments.map fun (other, value) => (wrapper other, value.render)).lookup (wrapper name) =
      (arguments.lookup name).map Argument.render := by
  induction arguments with
  | nil => rfl
  | cons argument arguments ih =>
      rw [List.map_cons, List.lookup_cons, List.lookup_cons, ih]
      by_cases hname : name = argument.1
      · simp [hname]
      · simp [hname, beq_eq_false_iff_ne.mpr, h.ne hname]

theorem lookup_replacements {wrapper : Wrapper} (h : Function.Injective wrapper)
    (arguments : Arguments) (name : String) :
    (replacements wrapper arguments).reverse.lookup (wrapper name) = filling? arguments name := by
  have hbar : String.ofList [variantSeparator] = "|" := rfl
  rw [replacements, List.reverse_cons, List.lookup_append, ← List.map_reverse,
    lookup_map_wrapper h, filling?, Arguments.last?, hbar]
  congr 1
  by_cases hname : name = separatorName
  · simp [hname]
  · simp [hname, List.lookup_cons, beq_eq_false_iff_ne.mpr (h.ne hname)]

theorem lookup_replacements_congr {wrapper : Wrapper} (h : Function.Injective wrapper)
    {arguments others : Arguments} (hlast : ∀ name, arguments.last? name = others.last? name)
    (token : String) :
    (replacements wrapper arguments).reverse.lookup token =
      (replacements wrapper others).reverse.lookup token := by
  by_cases hname : ∃ name, wrapper name = token
  · obtain ⟨name, rfl⟩ := hname
    rw [lookup_replacements h, lookup_replacements h, filling?, filling?, hlast]
  · have hnone : ∀ some : Arguments, (replacements wrapper some).reverse.lookup token = none := by
      intro some
      rw [List.lookup_eq_none_iff]
      intro entry hentry
      rw [List.mem_reverse, replacements, List.mem_cons, List.mem_map] at hentry
      have hne : token ≠ entry.1 := by
        rintro rfl
        rcases hentry with rfl | ⟨argument, -, rfl⟩
        · exact hname ⟨separatorName, rfl⟩
        · exact hname ⟨argument.1, rfl⟩
      simpa using hne
    rw [hnone, hnone]

theorem tokens_eq (wrapper : Wrapper) (arguments : Arguments) :
    tokens wrapper arguments =
      ((replacements wrapper arguments).map Prod.fst).toFinset.erase "" := by
  rw [tokens, replacements, List.map_cons, List.map_cons, List.map_map, List.map_map]
  rfl

variable {τ : Type}

theorem translate_eq (lookup : Lookup τ) (t : Translator) (id : String) (arguments : Arguments)
    (locale : Option String) (state : τ) {text : Option String} {after : τ}
    (hlookup : lookup (domainAndKey id).2 (domainAndKey id).1 (t.localeFor locale)
      ((arguments.last? countName).bind Argument.number?) state = (text, after)) :
    t.translate lookup id arguments locale state =
      (substitute (text.getD id) (replacements t.wrapper arguments), after) := by
  rw [← count?_eq] at hlookup
  rw [translate]
  simp only [hlookup]

/-- Placeholders are told apart by the built-in conventions and by fixed texts around a name. If
they are, arguments with the same last values give the same translation, and so does every order of
arguments with distinct names. The last `count` is the one whose number is looked up and whose text
is put in, and the separator stands for itself only if no argument has its name. -/
theorem translate_last_arguments :
    (∀ style : PlaceholderStyle, Function.Injective style.wrapper) ∧
    (∀ before after, Function.Injective (Wrapper.around before after)) ∧
    ∀ (lookup : Lookup τ) (t : Translator), Function.Injective t.wrapper →
      ∀ (id : String) (locale : Option String) (state : τ),
        (∀ arguments others : Arguments,
          (∀ name, arguments.last? name = others.last? name) →
          t.translate lookup id arguments locale state =
            t.translate lookup id others locale state) ∧
        (∀ arguments others : Arguments,
          arguments.Perm others → (arguments.map Prod.fst).Nodup →
          t.translate lookup id arguments locale state =
            t.translate lookup id others locale state) ∧
        ∀ arguments : Arguments, ∃ text after value segments,
          lookup (domainAndKey id).2 (domainAndKey id).1 (t.localeFor locale)
            ((arguments.last? countName).bind Argument.number?) state = (text, after) ∧
          (∀ name argument, arguments.last? name = some argument →
            value (t.wrapper name) = argument.render) ∧
          (arguments.last? separatorName = none → value (t.wrapper separatorName) = "|") ∧
          IsCut (tokens t.wrapper arguments) (text.getD id).toList segments ∧
          t.translate lookup id arguments locale state =
            (String.ofList (segments.flatMap (Segment.fill value)), after) := by
  refine ⟨PlaceholderStyle.injective_wrapper, Wrapper.injective_around, ?_⟩
  intro lookup t hwrapper id locale state
  have hsame : ∀ arguments others : Arguments,
      (∀ name, arguments.last? name = others.last? name) →
      t.translate lookup id arguments locale state =
        t.translate lookup id others locale state := by
    intro arguments others hlast
    have hothers := t.translate_eq lookup id others locale state rfl
    rw [← hlast] at hothers
    rw [hothers, t.translate_eq lookup id arguments locale state rfl,
      substitute_congr fun token _ => lookup_replacements_congr hwrapper hlast token]
  refine ⟨hsame, ?_, ?_⟩
  · intro arguments others hperm hnames
    exact hsame arguments others (Arguments.last?_perm hperm hnames)
  · intro arguments
    have hlast := lastAssigns_self (replacements t.wrapper arguments)
    have hempty : "" ∉ tokens t.wrapper arguments := Finset.notMem_erase "" _
    rw [← tokens_eq] at hlast
    refine ⟨_, _, fun token => ((replacements t.wrapper arguments).reverse.lookup token).getD "",
      _, rfl, ?_, ?_, hlast.isCut hempty _, ?_⟩
    · intro name argument hargument
      simp [lookup_replacements hwrapper, filling?, hargument]
    · intro hnone
      simp [lookup_replacements hwrapper, filling?, hnone]
    · rw [t.translate_eq lookup id arguments locale state rfl,
        hlast.substitute hempty (hlast.isCut hempty _)]

/-- A plural message with an overridden separator, whose count is given twice. -/
theorem translate_last_arguments_files :
    let t := ofLocale "en" PlaceholderStyle.percent.wrapper
    let c := Catalog.ofList [("files", .text "%count% file%I%|%count% files%I%")]
    let lookup : Lookup (Snapshots × Unit) :=
      .ofLoader (.ofCatalogs [(("default", "en"), c)]) .standard
    let arguments : Arguments := [("I", .text "/"), ("count", .int 5), ("count", .int 1)]
    let others : Arguments := [("count", .int 1), ("I", .bool true), ("I", .text "/")]
    let distinct : Arguments := [("count", .int 1), ("I", .text "/")]
    Function.Injective t.wrapper ∧ (∀ name, arguments.last? name = others.last? name) ∧
    t.translate lookup "files" arguments none (.empty, ()) =
      t.translate lookup "files" others none (.empty, ()) ∧
    distinct.Perm distinct.reverse ∧ (distinct.map Prod.fst).Nodup ∧
    t.translate lookup "files" distinct none (.empty, ()) =
      t.translate lookup "files" distinct.reverse none (.empty, ()) ∧
    ∃ value segments, value "%count%" = "1" ∧ value "%I%" = "/" ∧
      IsCut {"%count%", "%I%"} "%count% file%I%".toList segments ∧
      (t.translate lookup "files" arguments none (.empty, ())).1 =
        String.ofList (segments.flatMap (Segment.fill value)) := by
  intro t c lookup arguments others distinct
  have hinjective : Function.Injective t.wrapper := PlaceholderStyle.injective_wrapper .percent
  have hlast : ∀ name, arguments.last? name = others.last? name := by
    intro name
    by_cases hcount : name = "count"
    · subst hcount
      rfl
    · by_cases hseparator : name = "I"
      · subst hseparator
        rfl
      · simp [Arguments.last?, arguments, others, List.lookup_cons, beq_eq_false_iff_ne.mpr hcount,
          beq_eq_false_iff_ne.mpr hseparator]
  have hperm : distinct.Perm distinct.reverse := (List.reverse_perm distinct).symm
  have hnames : (distinct.map Prod.fst).Nodup := by decide
  obtain ⟨hsame, hpermuted, hfilled⟩ :=
    translate_last_arguments.2.2 lookup t hinjective "files" none (.empty, ())
  obtain ⟨text, after, value, segments, hlookup, hvalue, -, hcut, htranslate⟩ := hfilled arguments
  have htext : text = some "%count% file%I%" := by
    rw [show text = (text, after).1 from rfl, ← hlookup]
    decide +kernel
  have htokens : tokens t.wrapper arguments = {"%count%", "%I%"} := by decide
  rw [htext, htokens] at hcut
  exact ⟨hinjective, hlast, hsame _ _ hlast, hperm, hnames, hpermuted _ _ hperm hnames, value,
    segments, hvalue "count" (.int 1) rfl, hvalue "I" (.text "/") rfl, hcut,
    congrArg Prod.fst htranslate⟩

end Translator

end Phrasebook
