import Phrasebook.Proofs.Identifiers
import Phrasebook.Proofs.MessageVariants
import Phrasebook.Proofs.PluralCategories
import Phrasebook.Proofs.VariantChoice
import Phrasebook.Proofs.WholeNumbers

/-!
# Integer counts

An integer is counted as a number of 64 bits. The form it selects is therefore that of the integer
rounded to the digits such numbers have.
-/

namespace Phrasebook

open Number

/-- A template has a plain form for every plural category of a locale, and at least two. -/
structure HasForms (template locale : String) : Prop where
  plain : Variants.accepted template = []
  several : 2 ≤ (Variants.fragments template).length
  enough : Plural.count locale ≤ (Variants.fragments template).length

theorem HasForms.form {template locale : String} (h : HasForms template locale) (n : Int64) :
    ∃ form, (Variants.fragments template)[Plural.category n locale]? = some form := by
  have hlt := Nat.lt_of_lt_of_le (Plural.category_lt_count n locale) h.enough
  exact ⟨_, List.getElem?_eq_getElem hlt⟩

theorem Messages.get_of_hasForms {c : Catalog} {key template locale : String}
    (htext : (Messages.ofCatalog c).text? key = some template) (h : HasForms template locale)
    {number : Binary64} {form : List Char}
    (hform : (Variants.fragments template)[Plural.category number.truncate locale]? = some form) :
    ((Messages.ofCatalog c).get key (some number) locale .standard).text =
      some (String.ofList form) := by
  have hvariants : (Messages.ofCatalog c).variants? key = some (.ofTemplate template) := by
    have hseveral := (two_le_length_fragments_iff template).mp h.several
    rw [variants?_ofCatalog, htext, Option.filter_some, if_pos hseveral]
    rfl
  have hselect := Variants.select_of_plain number locale .standard h.plain
  rw [Strategy.standard, hform] at hselect
  simp only [get, hvariants, Strategy.standard, hselect]
  rfl

namespace Translator

variable {σ : Type}

theorem textFrom_of_hasForms (t : Translator) (call : Call) {c : Catalog}
    {locale template : String} {n : Int64} (hlocale : t.localeFor call.locale = locale)
    (hcount : call.arguments.reverse.lookup countName = some (.int n))
    (htext : (Messages.ofCatalog c).text? (domainAndKey call.id).2 = some template)
    (h : HasForms template locale) :
    ∃ form,
      (Variants.fragments template)[Plural.category (Binary64.rounded n) locale]? = some form ∧
        t.textFrom .standard (.ofCatalog c) call =
          Substitution.substitute (String.ofList form) (replacements t.wrapper call.arguments) := by
  obtain ⟨form, hform⟩ := h.form (Binary64.rounded n)
  have hnumber : count? call.arguments = some (.ofInt n.toInt) := by
    rw [count?, hcount]
    rfl
  have hget : ((Messages.ofCatalog c).get (domainAndKey call.id).2 (some (.ofInt n.toInt)) locale
      .standard).text = some (String.ofList form) := by
    apply Messages.get_of_hasForms htext h
    rw [Binary64.truncate_ofInt]
    exact hform
  refine ⟨form, hform, ?_⟩
  simp only [textFrom, hnumber, hlocale, hget]
  rfl

/-- An integer count selects the form of the integer rounded to the digits of a number. That is
the form of the integer itself if it has no more digits, and for the greatest integer, which is
rounded out of the range and brought back. -/
theorem translate_integer_count (t : Translator) (loader : Loader σ)
    (earlier : List (String × String)) (start : σ) (id : String) (arguments : Arguments)
    (locale template : String) (n : Int64)
    (hlocale : ∃ c ∈ locale.toList, Text.isBlank c = false)
    (hcount : arguments.reverse.lookup countName = some (.int n))
    (htext :
      let state := Snapshots.requestAll loader earlier (.empty, start)
      (Snapshots.messages loader (domainAndKey id).1 (Locale.normalize locale) state.1
        state.2).1.text? (domainAndKey id).2 = some template)
    (hforms : HasForms template (Locale.normalize locale)) :
    (∃ form,
      (Variants.fragments template)[Plural.category (Binary64.rounded n)
        (Locale.normalize locale)]? = some form ∧
      (t.translate (.ofLoader loader .standard) id arguments (some locale)
        (Snapshots.requestAll loader earlier (.empty, start))).1 =
          Substitution.substitute (String.ofList form) (replacements t.wrapper arguments)) ∧
    (Binary64.rounded n = n ↔
      Grid.spacing precision n.toInt.natAbs ∣ n.toInt.natAbs ∨ n = Int64.maxValue) ∧
    (n.toInt.natAbs ≤ 2 ^ precision → Binary64.rounded n = n) := by
  refine ⟨?_, Binary64.rounded_eq_self_iff n, Binary64.rounded_of_natAbs_le⟩
  have hfor := t.localeFor_of_not_blank hlocale
  have hcatalogs := Snapshots.fromCatalogs_requestAll loader earlier start
  generalize Snapshots.requestAll loader earlier (.empty, start) = state at htext hcatalogs ⊢
  obtain ⟨c, hmessages⟩ :=
    (hcatalogs.request (t.pair ⟨id, arguments, some locale⟩) state.2).1
  have htext : (Messages.ofCatalog c).text? (domainAndKey id).2 = some template := by
    rw [← hmessages, pair, hfor]
    exact htext
  have hanswer := t.textFrom_of_hasForms ⟨id, arguments, some locale⟩ hfor hcount htext hforms
  rw [← hmessages, ← t.translate_eq_textFrom] at hanswer
  exact hanswer

def filesLoader : Loader Unit :=
  .ofCatalogs [(("app", "ru"), .ofList [("files", .text "one|few|many")])]

def english : Translator := .ofLocale "en" PlaceholderStyle.percent.wrapper

theorem hasForms_files : HasForms "one|few|many" (Locale.normalize " ru") := by
  refine ⟨?_, ?_, ?_⟩ <;> decide +kernel

theorem translate_twenty_one_files :
    HasForms "one|few|many" (Locale.normalize " ru") ∧
    Binary64.rounded 21 = 21 ∧
    ∃ form,
      (Variants.fragments "one|few|many")[Plural.category (Binary64.rounded 21)
        (Locale.normalize " ru")]? = some form ∧
      (english.translate (.ofLoader filesLoader .standard) "app:files" [("count", .int 21)]
        (some " ru") (Snapshots.requestAll filesLoader [("app", "en")] (.empty, ()))).1 =
          Substitution.substitute (String.ofList form)
            (replacements english.wrapper [("count", .int 21)]) := by
  have hlaw := english.translate_integer_count filesLoader [("app", "en")] () "app:files"
    [("count", .int 21)] " ru" "one|few|many" 21 ⟨'r', by decide, by decide⟩ rfl rfl
    hasForms_files
  exact ⟨hasForms_files, hlaw.2.2 (by decide), hlaw.1⟩

/-- An odd integer of 54 digits is rounded to its even neighbour, which has another form. -/
theorem translate_odd_count_of_54_digits :
    HasForms "one|few|many" (Locale.normalize " ru") ∧
    (Snapshots.messages filesLoader "app" (Locale.normalize " ru") .empty ()).1.text? "files" =
      some "one|few|many" ∧
    ∃ form,
      (Variants.fragments "one|few|many")[Plural.category 9007199254741001
        (Locale.normalize " ru")]? = some form ∧
      (english.translate (.ofLoader filesLoader .standard) "app:files"
        [("count", .int 9007199254741001)] (some " ru") (.empty, ())).1 ≠
          Substitution.substitute (String.ofList form)
            (replacements english.wrapper [("count", .int 9007199254741001)]) := by
  refine ⟨hasForms_files, rfl, "one".toList, rfl, ?_⟩
  decide +kernel

end Translator

end Phrasebook
