import Phrasebook.Proofs.AppliedVariants
import Phrasebook.Proofs.PluralCategories
import Phrasebook.Proofs.VariantChoice
import Phrasebook.Proofs.WholeNumbers

/-!
# Enough forms

A template with a form for every plural category of a locale has a text for every number. With
fewer forms, and no conditions, some number is left without one.
-/

namespace Phrasebook

open Number

theorem Plural.exists_category_last (locale : String) :
    ∃ number : Binary64, Strategy.standard number.truncate locale + 1 = Plural.count locale := by
  have hsmall : (-1 : Int64).toInt.natAbs ≤ 2 ^ precision := by decide
  refine ⟨.ofInt (-1 : Int64).toInt, ?_⟩
  rw [Binary64.truncate_ofInt, Binary64.rounded_of_natAbs_le hsmall]
  exact (Plural.family locale).category_of_neg (by decide)

namespace Variants

theorem separator_not_mem_select {template text locale : String} {number : Binary64}
    {strategy : Strategy}
    (h : ((ofTemplate template).select number locale strategy).text = some text) :
    variantSeparator ∉ text.toList := by
  rw [select_text] at h
  obtain ⟨v, hfind, rfl⟩ := Option.map_eq_some_iff.mp h
  exact separator_not_mem_text (List.mem_of_find?_eq_some hfind)

theorem exists_select_of_lt {template locale : String} {number : Binary64} {strategy : Strategy}
    (h : strategy number.truncate locale < (rejected template).length) :
    ∃ text, ((ofTemplate template).select number locale strategy).text = some text := by
  rw [select_ofTemplate]
  cases (accepted template).findSome? (appliedText? number) with
  | some text => exact ⟨text, rfl⟩
  | none =>
      rw [List.getElem?_eq_getElem h]
      exact ⟨_, rfl⟩

/-- With a fragment for each category, every number has a text, and it holds no separator. A
template with fewer fragments than categories and no condition has none for some number. -/
theorem select_standard_of_enough (locale template : String) :
    (Plural.count locale ≤ (rejected template).length → ∀ number, ∃ text,
      ((ofTemplate template).select number locale .standard).text = some text ∧
        variantSeparator ∉ text.toList) ∧
    (accepted template = [] → (fragments template).length < Plural.count locale →
      ∃ number, ((ofTemplate template).select number locale .standard).text = none) := by
  constructor
  · intro henough number
    have hlt : Strategy.standard number.truncate locale < (rejected template).length :=
      Nat.lt_of_lt_of_le (Plural.category_lt_count number.truncate locale) henough
    obtain ⟨text, htext⟩ := exists_select_of_lt hlt
    exact ⟨text, htext, separator_not_mem_select htext⟩
  · intro hplain hfew
    obtain ⟨number, hlast⟩ := Plural.exists_category_last locale
    refine ⟨number, ?_⟩
    rw [select_of_plain number locale .standard hplain, List.getElem?_eq_none (by omega)]
    rfl

theorem select_standard_russian :
    Plural.count "ru_RU" ≤ (rejected "{0}none|one|few|[1|many").length ∧
    (∀ number, ∃ text,
      ((ofTemplate "{0}none|one|few|[1|many").select number "ru_RU" .standard).text = some text ∧
        variantSeparator ∉ text.toList) ∧
    accepted "one|many" = [] ∧ (fragments "one|many").length < Plural.count "ru_RU" ∧
    ∃ number, ((ofTemplate "one|many").select number "ru_RU" .standard).text = none := by
  have henough : Plural.count "ru_RU" ≤ (rejected "{0}none|one|few|[1|many").length := by
    decide +kernel
  have hplain : accepted "one|many" = [] := by decide +kernel
  have hfew : (fragments "one|many").length < Plural.count "ru_RU" := by decide +kernel
  exact ⟨henough, (select_standard_of_enough "ru_RU" _).1 henough, hplain, hfew,
    (select_standard_of_enough "ru_RU" "one|many").2 hplain hfew⟩

end Variants

end Phrasebook
