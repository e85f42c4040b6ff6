import Mathlib.Data.List.TakeWhile
import Phrasebook.Translator

/-!
# Identifiers and locales of calls

An identifier that is put together from a domain and a key is taken apart in the same way, if there
is no colon in the domain. A locale that is not blank is used in its normal form.
-/

namespace Phrasebook

namespace Text

theorem splitOnce_append {separator : Char} {before : List Char} (after : List Char)
    (h : separator ∉ before) :
    splitOnce separator (before ++ separator :: after) = some (before, after) := by
  induction before with
  | nil => simp [splitOnce]
  | cons c before ih =>
      simp only [List.mem_cons, not_or] at h
      rw [List.cons_append, splitOnce, if_neg fun heq => h.1 heq.symm, ih h.2]
      rfl

theorem mem_dropWhile_of_eq_false {p : Char → Bool} {s : List Char} {c : Char} (hmem : c ∈ s)
    (hc : p c = false) : c ∈ s.dropWhile p := by
  have hsplit : s.takeWhile p ++ s.dropWhile p = s := List.takeWhile_append_dropWhile
  rw [← hsplit, List.mem_append] at hmem
  rcases hmem with hmem | hmem
  · rw [List.mem_takeWhile_imp hmem] at hc
    cases hc
  · exact hmem

theorem mem_trim {s : List Char} {c : Char} (hmem : c ∈ s) (hc : isBlank c = false) :
    c ∈ trim s := by
  rw [trim, List.mem_reverse]
  apply mem_dropWhile_of_eq_false _ hc
  rw [List.mem_reverse]
  exact mem_dropWhile_of_eq_false hmem hc

end Text

namespace Translator

theorem domainAndKey_append {domain : String} (h : ':' ∉ domain.toList) (key : String) :
    domainAndKey (domain ++ ":" ++ key) = (domain, key) := by
  have hlist : (domain ++ ":" ++ key).toList = domain.toList ++ ':' :: key.toList := by simp
  rw [domainAndKey, hlist, Text.splitOnce_append _ h]
  simp

theorem colon_not_mem_domain (id : String) : ':' ∉ (domainAndKey id).1.toList := by
  unfold domainAndKey
  split
  · rename_i domain key hsplit
    simpa using (Text.eq_append_of_splitOnce hsplit).2
  · simp [defaultDomain]

theorem named?_of_blank {locale : String} (h : ∀ c ∈ locale.toList, Text.isBlank c = true) :
    named? locale = none := by
  have htrim : Text.trim locale.toList = [] := by
    rw [Text.trim, List.dropWhile_eq_nil_iff.mpr h]
    rfl
  rw [named?, Locale.normalize, htrim]
  rfl

theorem named?_of_not_blank {locale : String} (h : ∃ c ∈ locale.toList, Text.isBlank c = false) :
    named? locale = some (Locale.normalize locale) := by
  obtain ⟨c, hmem, hc⟩ := h
  have hne : Locale.normalize locale ≠ "" := by
    intro hempty
    have htrim : Text.trim locale.toList = [] := by
      have hlist := congrArg String.toList hempty
      simpa [Locale.normalize] using hlist
    have hkept := Text.mem_trim hmem hc
    rw [htrim] at hkept
    cases hkept
  simp [named?, hne]

theorem localeFor_of_not_blank (t : Translator) {locale : String}
    (h : ∃ c ∈ locale.toList, Text.isBlank c = false) :
    t.localeFor (some locale) = Locale.normalize locale := by
  rw [localeFor, Option.bind_some, named?_of_not_blank h]
  rfl

end Translator

end Phrasebook
