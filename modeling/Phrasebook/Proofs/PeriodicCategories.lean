import Phrasebook.Proofs.PluralCategories

/-!
# Periodic plural categories

From twelve on no family tells integers apart by more than their last two digits, and negative
integers are all alike. So the categories of a few small integers decide on those of all others.
-/

namespace Phrasebook

namespace Family

theorem category_congr (family : Family) {n m : Int} (hn : 12 ≤ n) (hm : 12 ≤ m)
    (h : n.tmod 100 = m.tmod 100) : family.category n = family.category m := by
  have hdvd : (10 : Int) ∣ 100 := by decide
  have h10 : n.tmod 10 = m.tmod 10 :=
    calc n.tmod 10 = (n.tmod 100).tmod 10 := (Int.tmod_tmod_of_dvd n hdvd).symm
      _ = (m.tmod 100).tmod 10 := by rw [h]
      _ = m.tmod 10 := Int.tmod_tmod_of_dvd m hdvd
  -- The integers that families single out, rather than their digits, are below twelve.
  cases family with
  | slavic | lithuanian | slovenian | macedonian | single => simp only [category, h, h10]
  | oneOther | zeroOneOther | czechSlovak | irish | welsh =>
      simp only [category]
      repeat rw [if_neg (by omega), if_neg (by omega)]
  | maltese | latvian | polish | romanian | arabic =>
      have hzero : n ≠ 0 ∧ m ≠ 0 := by omega
      have hone : n ≠ 1 ∧ m ≠ 1 := by omega
      have htwo : ¬ n ≤ 2 ∧ ¬ m ≤ 2 := by omega
      simp only [category, h, h10, hzero, hone, htwo, and_false, if_false, false_or]

theorem category_add_hundred (family : Family) {n : Int} (h : 12 ≤ n) :
    family.category (n + 100) = family.category n := by
  apply family.category_congr (by omega) h
  rw [Int.tmod_eq_emod_of_nonneg (by omega), Int.tmod_eq_emod_of_nonneg (by omega),
    Int.add_emod_right]

example : welsh.category 11 = 2 ∧ welsh.category (11 + 100) = 3 := by decide

/-- An integer from -1 to 111 that counts as a given one does. -/
def representative (n : Int) : Int :=
  if n < 0 then -1 else if n < 12 then n else 12 + (n - 12) % 100

theorem representative_bounds (n : Int) : -1 ≤ representative n ∧ representative n < 112 := by
  rw [representative]
  split
  · omega
  · split <;> omega

theorem category_representative (family : Family) (n : Int) :
    family.category (representative n) = family.category n := by
  rw [representative]
  split
  · rename_i hneg
    have hlast := family.category_of_neg (n := -1) (by decide)
    have hn := family.category_of_neg hneg
    omega
  · split
    · rfl
    · apply family.category_congr (by omega) (by omega)
      rw [Int.tmod_eq_emod_of_nonneg (by omega), Int.tmod_eq_emod_of_nonneg (by omega)]
      omega

end Family

theorem toInt_add_hundred {n : Int64} (h : 12 ≤ n.toInt)
    (hmax : n.toInt + 100 ≤ Int64.maxValue.toInt) : (n + 100).toInt = n.toInt + 100 := by
  have hundred : (100 : Int64).toInt = 100 := by decide
  have hbound : Int64.maxValue.toInt = 2 ^ 63 - 1 := by decide
  rw [Int64.toInt_add, hundred]
  apply Int.bmod_eq_of_le <;> omega

namespace Plural

/-- From twelve on a hundred more makes no difference, and negative integers fall in the last
category. So each integer of 64 bits counts as one from -1 to 111 does, in every locale. -/
theorem category_of_small_numbers (n : Int64) :
    (12 ≤ n → n.toInt + 100 ≤ Int64.maxValue.toInt →
      ∀ locale, category (n + 100) locale = category n locale) ∧
    (n < 0 → ∀ locale, category n locale + 1 = count locale) ∧
    ∃ m : Int64, -1 ≤ m ∧ m < 112 ∧ ∀ locale, category n locale = category m locale := by
  refine ⟨fun h hmax locale => ?_, fun h locale => ?_, ?_⟩
  · have htwelve : 12 ≤ n.toInt := Int64.le_iff_toInt_le.mp h
    rw [category, toInt_add_hundred htwelve hmax]
    exact (family locale).category_add_hundred htwelve
  · exact (family locale).category_of_neg (Int64.lt_iff_toInt_lt.mp h)
  · obtain ⟨hlow, hhigh⟩ := Family.representative_bounds n.toInt
    have htoInt : (Int64.ofInt (Family.representative n.toInt)).toInt =
        Family.representative n.toInt := Int64.toInt_ofInt_of_le (by omega) (by omega)
    refine ⟨.ofInt (Family.representative n.toInt), ?_, ?_, fun locale => ?_⟩
    · rw [Int64.le_iff_toInt_le, htoInt]
      exact hlow
    · rw [Int64.lt_iff_toInt_lt, htoInt]
      exact hhigh
    · rw [category, category, htoInt]
      exact ((family locale).category_representative n.toInt).symm

/-- Arabic at both ends of the integers of 64 bits. -/
theorem category_of_small_numbers_arabic :
    12 ≤ Int64.maxValue - 100 ∧ (Int64.maxValue - 100).toInt + 100 ≤ Int64.maxValue.toInt ∧
    category (Int64.maxValue - 100 + 100) "ar_EG" = category (Int64.maxValue - 100) "ar_EG" ∧
    category (Int64.maxValue - 100) "ar_EG" = 3 ∧
    Int64.minValue < 0 ∧ category Int64.minValue "ar_EG" + 1 = count "ar_EG" ∧
    count "ar_EG" = 6 := by
  have htwelve : 12 ≤ Int64.maxValue - 100 := by decide
  have hmax : (Int64.maxValue - 100).toInt + 100 ≤ Int64.maxValue.toInt := by decide
  have hneg : Int64.minValue < 0 := by decide
  exact ⟨htwelve, hmax, (category_of_small_numbers _).1 htwelve hmax "ar_EG", by decide +kernel,
    hneg, (category_of_small_numbers _).2.1 hneg "ar_EG", by decide +kernel⟩

end Plural

end Phrasebook
