import Mathlib.Data.Set.Operations
import Phrasebook.Plural

/-!
# Plural categories in range

A family numbers its categories from zero, and every integer falls in one of them. No category is
left out: small integers fall in each of them, and negative ones in the last.
-/

namespace Phrasebook

theorem tmod_nonpos {n : Int} (h : n < 0) (k : Int) : n.tmod k ≤ 0 := by
  have hneg : 0 ≤ (-n).tmod k := Int.tmod_nonneg k (by omega)
  rw [Int.neg_tmod] at hneg
  omega

/-- The last digits of a negative integer are negative too, so no category but the last has it. -/
theorem Family.category_of_neg (family : Family) {n : Int} (h : n < 0) :
    family.category n + 1 = family.count := by
  have h10 : n.tmod 10 ≤ 0 := tmod_nonpos h 10
  have h100 : n.tmod 100 ≤ 0 := tmod_nonpos h 100
  cases family with
  | single => rfl
  | _ =>
      simp only [category, count]
      repeat rw [if_neg (by omega)]

theorem Family.category_lt_count (family : Family) (n : Int) :
    family.category n < family.count := by
  cases family with
  | arabic =>
      simp only [category, count]
      split
      · omega
      · repeat' split
        all_goals decide
  | _ =>
      simp only [category, count]
      repeat' split
      all_goals decide

def Family.samples : Family → List Int64
  | .single => [0]
  | .oneOther | .macedonian => [1, 0]
  | .zeroOneOther => [0, 2]
  | .slavic | .czechSlovak | .irish | .polish => [1, 2, 5]
  | .lithuanian => [1, 2, 0]
  | .latvian => [0, 1, 2]
  | .romanian => [1, 0, 20]
  | .slovenian => [1, 2, 3, 0]
  | .maltese => [1, 0, 11, 20]
  | .welsh => [1, 2, 8, 0]
  | .arabic => [0, 1, 2, 3, 11, 100]

theorem Family.map_category_samples (family : Family) :
    family.samples.map (fun n => family.category n.toInt) = List.range family.count := by
  cases family <;> rfl

theorem Family.exists_category_eq {family : Family} {k : Nat} (h : k < family.count) :
    ∃ n : Int64, family.category n.toInt = k := by
  have hmem : k ∈ family.samples.map fun n => family.category n.toInt := by
    rw [map_category_samples]
    exact List.mem_range.mpr h
  obtain ⟨n, -, hn⟩ := List.mem_map.mp hmem
  exact ⟨n, hn⟩

namespace Plural

theorem category_lt_count (n : Int64) (locale : String) : category n locale < count locale :=
  Family.category_lt_count _ _

/-- The integers of 64 bits fall in exactly as many categories as a locale declares, whatever the
locale is. -/
theorem range_category (locale : String) :
    Set.range (fun n => category n locale) = {k | k < count locale} := by
  ext k
  constructor
  · rintro ⟨n, rfl⟩
    exact category_lt_count n locale
  · intro h
    obtain ⟨n, hn⟩ := Family.exists_category_eq h
    exact ⟨n, hn⟩

end Plural

end Phrasebook
