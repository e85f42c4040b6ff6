import Phrasebook.Plural

/-!
# Tags with regions and scripts

Plural rules are looked up under a tag without its last subtag. A tag of a language and one more
subtag has the rules of its language. A longer one is looked up under a tag that is no language, so
it has one category, whatever its language has.
-/

namespace Phrasebook

namespace Locale

def tag (language : String) (subtags : List String) : String :=
  "_".intercalate (language :: subtags)

theorem tag_nil (language : String) : tag language [] = language :=
  String.intercalate_singleton

theorem tag_concat (language : String) (subtags : List String) (last : String) :
    tag language (subtags ++ [last]) = tag language subtags ++ "_" ++ last := by
  rw [tag, ← List.cons_append, String.intercalate_append_of_ne_nil (List.cons_ne_nil _ _)
    (List.cons_ne_nil _ _), String.intercalate_singleton]
  rfl

theorem underscore_mem_tag (language : String) {subtags : List String} (h : subtags ≠ []) :
    '_' ∈ (tag language subtags).toList := by
  rw [← List.dropLast_concat_getLast h]
  rw [tag_concat]
  simp

theorem dropRegion_append {region : List Char} (h : '_' ∉ region) (before : List Char) :
    dropRegion (before ++ '_' :: region) = before := by
  have hmem : '_' ∈ before ++ '_' :: region := by simp
  have hregion : ∀ c ∈ region.reverse, decide (c ≠ '_') = true := by
    intro c hc
    simp only [decide_eq_true_eq]
    rintro rfl
    exact h (List.mem_reverse.mp hc)
  rw [dropRegion, if_pos hmem, List.reverse_append, List.reverse_cons, List.append_assoc,
    List.dropWhile_append_of_pos hregion]
  simp

theorem language_of_not_mem {locale : String} (h : '_' ∉ locale.toList) :
    language locale = locale := by
  have hbrazil : locale ≠ "pt_BR" := by
    rintro rfl
    exact h (by decide)
  rw [language, if_neg hbrazil, dropRegion, if_neg h, String.ofList_toList]

theorem language_append {locale region : String} (h : '_' ∉ region.toList)
    (hbrazil : locale ++ "_" ++ region ≠ "pt_BR") :
    language (locale ++ "_" ++ region) = locale := by
  have hlist : (locale ++ "_" ++ region).toList = locale.toList ++ '_' :: region.toList := by
    simp
  rw [language, if_neg hbrazil, hlist, dropRegion_append h, String.ofList_toList]

end Locale

/-- No listed language but Brazilian Portuguese has a subtag. -/
theorem Family.ofLanguage_of_mem {language : String} (h : '_' ∈ language.toList)
    (hbrazil : language ≠ "pt_BR") : Family.ofLanguage language = .single := by
  have honeOther : ∀ listed ∈ oneOtherLanguages, '_' ∉ listed.toList := by decide +kernel
  have hzeroOneOther : ∀ listed ∈ zeroOneOtherLanguages,
      '_' ∈ listed.toList → listed = "pt_BR" := by decide +kernel
  have hslavic : ∀ listed ∈ slavicLanguages, '_' ∉ listed.toList := by decide +kernel
  have hsmall : ∀ listed ∈ smallFamilies, '_' ∉ listed.1.toList := by decide +kernel
  have hnone : smallFamilies.lookup language = none := by
    rw [List.lookup_eq_none_iff]
    intro listed hlisted
    apply bne_iff_ne.mpr
    rintro rfl
    exact hsmall listed hlisted h
  rw [ofLanguage, if_neg fun hmem => honeOther _ hmem h,
    if_neg fun hmem => hbrazil (hzeroOneOther _ hmem h), if_neg fun hmem => hslavic _ hmem h, hnone]
  rfl

theorem Family.eq_single_of_count {family : Family} (h : family.count = 1) : family = .single := by
  cases family with
  | single => rfl
  | _ => cases h

namespace Plural

open Phrasebook.Locale

theorem family_tag_single {language region : String} (hlanguage : '_' ∉ language.toList)
    (hregion : '_' ∉ region.toList) (hbrazil : tag language [region] ≠ "pt_BR") :
    family (tag language [region]) = family language := by
  have htag : tag language [region] = language ++ "_" ++ region := by
    rw [← List.nil_append [region], tag_concat, tag_nil]
  rw [htag] at hbrazil ⊢
  rw [family, family, language_append hregion hbrazil, language_of_not_mem hlanguage]

theorem family_tag_concat {language last : String} {subtags : List String} (hne : subtags ≠ [])
    (hlast : '_' ∉ last.toList) (hbrazil : tag language (subtags ++ [last]) ≠ "pt_BR")
    (hextension : ¬ ∃ rest, tag language (subtags ++ [last]) = "pt_BR_" ++ rest) :
    family (tag language (subtags ++ [last])) = .single := by
  have hmem := underscore_mem_tag language hne
  rw [tag_concat] at hbrazil hextension ⊢
  have hpart : tag language subtags ≠ "pt_BR" := by
    intro hpart
    rw [hpart] at hextension
    exact hextension ⟨last, rfl⟩
  rw [family, language_append hlast hbrazil]
  exact Family.ofLanguage_of_mem hmem hpart

/-- A tag of a language and subtags that is not Brazilian Portuguese counts as its language does
exactly if it has one subtag or the language has one category. With more subtags it has one. -/
theorem category_tag_eq_iff (language : String) (subtags : List String)
    (hlanguage : '_' ∉ language.toList) (hne : subtags ≠ [])
    (hsubtags : ∀ subtag ∈ subtags, '_' ∉ subtag.toList)
    (hbrazil : tag language subtags ≠ "pt_BR")
    (hextension : ¬ ∃ rest, tag language subtags = "pt_BR_" ++ rest) :
    ((count (tag language subtags) = count language ∧
        ∀ n, category n (tag language subtags) = category n language) ↔
      subtags.length = 1 ∨ count language = 1) ∧
    (1 < subtags.length →
      count (tag language subtags) = 1 ∧ ∀ n, category n (tag language subtags) = 0) := by
  obtain ⟨before, last, rfl⟩ : ∃ before last, subtags = before ++ [last] :=
    ⟨_, _, (List.dropLast_concat_getLast hne).symm⟩
  have hlast := hsubtags last (by simp)
  -- The lookup drops the last subtag: what is left is the language only if there is no other.
  by_cases hbefore : before = []
  · subst hbefore
    have hfamily := family_tag_single hlanguage hlast hbrazil
    simp [count, category, hfamily]
  · have hfamily := family_tag_concat hbefore hlast hbrazil hextension
    have hlength : 0 < before.length := List.length_pos_iff.mpr hbefore
    have hcount : count (tag language (before ++ [last])) = 1 := by
      rw [count, hfamily]
      rfl
    have hcategory : ∀ n, category n (tag language (before ++ [last])) = 0 := by
      intro n
      rw [category, hfamily]
      rfl
    refine ⟨⟨fun hsame => Or.inr (hsame.1.symm.trans hcount), fun hsingle => ?_⟩,
      fun _ => ⟨hcount, hcategory⟩⟩
    rw [List.length_append, List.length_singleton] at hsingle
    have hone : count language = 1 := hsingle.resolve_left (by omega)
    refine ⟨hcount.trans hone.symm, fun n => ?_⟩
    rw [hcategory, category, Family.eq_single_of_count hone]
    rfl

/-- Serbian with a script counts as Serbian; with a script and a region it has one category. -/
theorem category_serbian_tags :
    tag "sr" ["Latn"] = "sr_Latn" ∧
    (count "sr_Latn" = count "sr" ∧ ∀ n, category n "sr_Latn" = category n "sr") ∧
    tag "sr" ["Latn", "RS"] = "sr_Latn_RS" ∧
    (count "sr_Latn_RS" = 1 ∧ ∀ n, category n "sr_Latn_RS" = 0) ∧
    count "sr" = 3 ∧ category 2 "sr" = 1 := by
  have hserbian : '_' ∉ "sr".toList := by decide
  have hscript : tag "sr" ["Latn"] = "sr_Latn" := by decide +kernel
  have hregion : tag "sr" ["Latn", "RS"] = "sr_Latn_RS" := by decide +kernel
  have hextension : ∀ locale : String, locale.toList.head? = some 's' →
      ¬ ∃ rest, locale = "pt_BR_" ++ rest := by
    rintro _ hhead ⟨rest, rfl⟩
    rw [String.toList_append] at hhead
    cases hhead
  have hshort := category_tag_eq_iff "sr" ["Latn"] hserbian (by decide) (by decide +kernel)
    (by rw [hscript]; decide) (by rw [hscript]; exact hextension _ rfl)
  have hlong := category_tag_eq_iff "sr" ["Latn", "RS"] hserbian (by decide) (by decide +kernel)
    (by rw [hregion]; decide) (by rw [hregion]; exact hextension _ rfl)
  rw [hscript] at hshort
  rw [hregion] at hlong
  exact ⟨hscript, hshort.1.mpr (Or.inl rfl), hregion, hlong.2 (by decide), by decide +kernel,
    by decide +kernel⟩

end Plural

end Phrasebook
