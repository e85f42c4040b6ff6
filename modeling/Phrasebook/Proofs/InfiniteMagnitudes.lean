import Phrasebook.Proofs.NearestMagnitudes

/-!
# What rounds to infinity

A quotient is rounded to infinity exactly if it is not below the middle between the largest finite
magnitude and `2 ^ 1024`, which would come next. On the middle the even code is taken, which is that
of infinity.
-/

namespace Phrasebook.Number

/-- The middle between the largest finite number and `2 ^ 1024`. -/
def overflow : Nat := (2 ^ 54 - 1) * 2 ^ 970

theorem stepsPerUnit_pos : 0 < stepsPerUnit := by
  unfold stepsPerUnit
  generalize 1074 = digits
  exact Nat.two_pow_pos digits

theorem steps_add_steps_infinityCode :
    Grid.steps precision (infinityCode - 1) + Grid.steps precision infinityCode =
      2 * (overflow * stepsPerUnit) := by
  decide +kernel

namespace Magnitude

theorem isInfinite_iff (m : Magnitude) : m.isInfinite = true ↔ m = infinity := by
  cases m
  simp [isInfinite, infinity]

theorem code_le_of_ne_infinity {m : Magnitude} (h : m ≠ infinity) : m.code ≤ infinityCode - 1 := by
  have hle := m.code_le
  have hne : m.code ≠ infinityCode := code_ne_code h
  omega

theorem IsNearest.eq_infinity_iff {num den : Nat} {m : Magnitude} (h : m.IsNearest num den)
    (hden : 0 < den) : m = infinity ↔ overflow * den ≤ num := by
  have hmono := Grid.strictMono_steps (by decide : 0 < precision)
  have hlt : Grid.steps precision (infinityCode - 1) * den < infinity.steps * den :=
    Nat.mul_lt_mul_of_pos_right (hmono (by decide : infinityCode - 1 < infinityCode)) hden
  have hmiddle : Grid.steps precision (infinityCode - 1) * den + infinity.steps * den =
      2 * (overflow * den * stepsPerUnit) := by
    have hinfinity : infinity.steps = Grid.steps precision infinityCode := rfl
    rw [← Nat.add_mul, hinfinity, steps_add_steps_infinityCode, Nat.mul_assoc, Nat.mul_right_comm]
  have hscale : overflow * den ≤ num ↔ overflow * den * stepsPerUnit ≤ num * stepsPerUnit :=
    (Nat.mul_le_mul_right_iff stepsPerUnit_pos).symm
  rw [hscale]
  constructor
  · rintro rfl
    -- Below the middle the largest finite magnitude is nearer.
    have hnear := h.distance_le ⟨infinityCode - 1, Nat.sub_le _ _⟩
    have hlargest : steps ⟨infinityCode - 1, Nat.sub_le _ _⟩ =
        Grid.steps precision (infinityCode - 1) := rfl
    simp only [distance, Nat.dist, hlargest] at hnear
    omega
  · intro hle
    by_contra hne
    have hcode := code_le_of_ne_infinity hne
    have hsteps : m.steps * den ≤ Grid.steps precision (infinityCode - 1) * den :=
      Nat.mul_le_mul_right den (hmono.monotone hcode)
    have hnear := h.distance_le infinity
    have htie := h.even_of_tie infinity (Ne.symm hne)
    simp only [distance, Nat.dist] at hnear htie
    have hlast : m.steps * den = Grid.steps precision (infinityCode - 1) * den := by omega
    -- Only the largest finite magnitude is as near as infinity, and its code is odd.
    have hcode : m.code = infinityCode - 1 :=
      hmono.injective (Nat.eq_of_mul_eq_mul_right hden hlast)
    have heven := htie (by omega)
    rw [hcode] at heven
    cases heven

end Magnitude

theorem Binary64.not_isFinite_cases {x : Binary64} (hx : x.isFinite = false) :
    x = .nan ∨ x = .infinity ∨ x = .negativeInfinity := by
  cases x with
  | nan => exact Or.inl rfl
  | signed negative m =>
      have hm : m = .infinity := by simpa [isFinite, Magnitude.isInfinite_iff] using hx
      subst hm
      cases negative
      · exact Or.inr (Or.inl rfl)
      · exact Or.inr (Or.inr rfl)

end Phrasebook.Number
