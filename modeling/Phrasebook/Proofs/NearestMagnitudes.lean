import Mathlib.Data.Nat.Dist
import Mathlib.Order.Monotone.Basic
import Phrasebook.Number.Decimal
import Phrasebook.Proofs.WholeNumbers

/-!
# Correct rounding

Rounding takes a quotient to the nearest magnitude, and between two equally near ones to the one
with the even code. There is just one such magnitude for every quotient, so the decimals read from
a text denote correctly rounded numbers, however many digits they have.
-/

namespace Phrasebook.Number

namespace Grid

/-- A code that has a scale is made of it and of a significand with all binary digits. -/
theorem exists_significand {p code : Nat} (hp : 0 < p) (hcode : 2 ^ (p - 1) ≤ code) :
    ∃ scale significand, 2 ^ (p - 1) ≤ significand ∧ significand < 2 ^ p ∧
      code = scale * 2 ^ (p - 1) + significand := by
  have hpow : 2 ^ (p - 1) * 2 = 2 ^ p := Nat.two_pow_pred_mul_two hp
  have hpos : 0 < 2 ^ (p - 1) := Nat.two_pow_pos _
  obtain ⟨scale, hscale⟩ : ∃ scale, code / 2 ^ (p - 1) = scale + 1 :=
    Nat.exists_eq_add_one.mpr (Nat.div_pos hcode hpos)
  have hmod : code % 2 ^ (p - 1) < 2 ^ (p - 1) := Nat.mod_lt _ hpos
  have hsplit := Nat.div_add_mod' code (2 ^ (p - 1))
  rw [hscale, Nat.add_mul, Nat.one_mul] at hsplit
  exact ⟨scale, 2 ^ (p - 1) + code % 2 ^ (p - 1), by omega, by omega, by omega⟩

theorem steps_lt_steps_succ {p : Nat} (hp : 0 < p) (code : Nat) :
    steps p code < steps p (code + 1) := by
  have hpow : 2 ^ (p - 1) * 2 = 2 ^ p := Nat.two_pow_pred_mul_two hp
  rcases Nat.lt_or_ge code (2 ^ (p - 1)) with hlt | hge
  · rw [steps_of_lt hp (by omega), steps_of_lt hp (by omega)]
    exact Nat.lt_succ_self code
  · -- The significand has room for one more.
    obtain ⟨scale, significand, hlow, hhigh, rfl⟩ := exists_significand hp hge
    rw [Nat.add_assoc, steps_add hp scale hlow (Nat.le_of_lt hhigh),
      steps_add hp scale (Nat.le_succ_of_le hlow) hhigh]
    exact Nat.mul_lt_mul_of_pos_right (Nat.lt_succ_self _) (Nat.two_pow_pos scale)

theorem steps_succ_le_two_mul {p code : Nat} (hp : 0 < p) (hcode : 0 < code) :
    steps p (code + 1) ≤ 2 * steps p code := by
  have hpow : 2 ^ (p - 1) * 2 = 2 ^ p := Nat.two_pow_pred_mul_two hp
  rcases Nat.lt_or_ge code (2 ^ (p - 1)) with hlt | hge
  · rw [steps_of_lt hp (by omega), steps_of_lt hp (by omega)]
    omega
  · obtain ⟨scale, significand, hlow, hhigh, rfl⟩ := exists_significand hp hge
    have hpos : 0 < 2 ^ (p - 1) := Nat.two_pow_pos _
    rw [Nat.add_assoc, steps_add hp scale hlow (Nat.le_of_lt hhigh),
      steps_add hp scale (Nat.le_succ_of_le hlow) hhigh, ← Nat.mul_assoc]
    exact Nat.mul_le_mul_right _ (by omega)

theorem strictMono_steps {p : Nat} (hp : 0 < p) : StrictMono (steps p) :=
  strictMono_nat_of_lt_succ (steps_lt_steps_succ hp)

theorem steps_floorCode_mul_le {p : Nat} (hp : 0 < p) (num : Nat) {den : Nat} (hden : 0 < den) :
    steps p (floorCode p (num / den)) * den ≤ num ∧
      num < steps p (floorCode p (num / den) + 1) * den := by
  obtain ⟨hbelow, habove⟩ := steps_floorCode hp (num / den)
  have hspacing := spacing_pos p (num / den)
  constructor
  · have hle : steps p (floorCode p (num / den)) ≤ num / den := by
      rw [hbelow]
      exact Nat.div_mul_le_self _ _
    exact (Nat.le_div_iff_mul_le hden).mp hle
  · have hlt : num / den < steps p (floorCode p (num / den) + 1) := by
      rw [habove]
      exact Nat.lt_mul_of_div_lt (Nat.lt_succ_self _) hspacing
    exact (Nat.div_lt_iff_lt_mul hden).mp hlt

theorem nearest_cases (p num den : Nat) {below low high : Nat}
    (hbelow : floorCode p (num / den) = below) (hlow : steps p below * den = low)
    (hhigh : steps p (below + 1) * den = high) :
    (nearest p num den = below ∧ 2 * num ≤ low + high ∧
        (2 * num = low + high → below % 2 = 0)) ∨
      (nearest p num den = below + 1 ∧ low + high ≤ 2 * num ∧
        (2 * num = low + high → (below + 1) % 2 = 0)) := by
  unfold nearest
  simp only [hbelow, Nat.add_mul, hlow, hhigh]
  split
  · exact Or.inl ⟨rfl, by omega, by omega⟩
  · split
    · exact Or.inr ⟨rfl, by omega, by omega⟩
    · split
      · exact Or.inl ⟨rfl, by omega, by omega⟩
      · exact Or.inr ⟨rfl, by omega, by omega⟩

end Grid

namespace Magnitude

/-- How far a magnitude is from `num / den`, in steps and times `den`. -/
def distance (m : Magnitude) (num den : Nat) : Nat :=
  Nat.dist (num * stepsPerUnit) (m.steps * den)

/-- A magnitude is `num / den` correctly rounded: none is nearer, and if another one is as near
then its own code is even. Infinity is where the next finite magnitude would be. -/
structure IsNearest (num den : Nat) (m : Magnitude) : Prop where
  distance_le : ∀ other : Magnitude, m.distance num den ≤ other.distance num den
  even_of_tie : ∀ other : Magnitude, other ≠ m →
    other.distance num den = m.distance num den → m.code % 2 = 0

theorem steps_mul_lt {m other : Magnitude} {den : Nat} (hden : 0 < den)
    (h : m.code < other.code) : m.steps * den < other.steps * den :=
  Nat.mul_lt_mul_of_pos_right (Grid.strictMono_steps (by decide) h) hden

theorem code_ne_code {m other : Magnitude} (h : other ≠ m) : other.code ≠ m.code := by
  intro hcode
  apply h
  cases m
  cases other
  simp_all

theorem isNearest_of_distance_lt {num den : Nat} {m : Magnitude}
    (h : ∀ other : Magnitude, other ≠ m → m.distance num den < other.distance num den) :
    m.IsNearest num den := by
  constructor
  · intro other
    by_cases heq : other = m
    · rw [heq]
    · exact Nat.le_of_lt (h other heq)
  · intro other hother htie
    exact absurd htie (Nat.ne_of_gt (h other hother))

/-- There is one nearest magnitude: between two with even codes there is a nearer one. -/
theorem IsNearest.unique {num den : Nat} {m other : Magnitude} (hden : 0 < den)
    (h : m.IsNearest num den) (hother : other.IsNearest num den) : m = other := by
  by_contra hne
  wlog hlt : m.code < other.code generalizing m other
  · have hcode := code_ne_code hne
    exact this hother h (Ne.symm hne) (by omega)
  have hsame : other.distance num den = m.distance num den :=
    Nat.le_antisymm (hother.distance_le m) (h.distance_le other)
  have heven := h.even_of_tie other (Ne.symm hne) hsame
  have heven' := hother.even_of_tie m hne hsame.symm
  have hle := other.code_le
  let between : Magnitude := ⟨m.code + 1, by omega⟩
  have hnear := h.distance_le between
  have hleft : m.steps * den < between.steps * den := steps_mul_lt hden (Nat.lt_succ_self _)
  have hright : between.steps * den < other.steps * den :=
    steps_mul_lt hden (show m.code + 1 < other.code by omega)
  simp only [distance, Nat.dist] at hsame hnear
  omega

theorem distance_cases {num den below : Nat} (hden : 0 < den)
    (hlow : Grid.steps precision below * den ≤ num * stepsPerUnit)
    (hhigh : num * stepsPerUnit < Grid.steps precision (below + 1) * den) (m : Magnitude) :
    (m.code ≤ below ∧
      num * stepsPerUnit - Grid.steps precision below * den ≤ m.distance num den ∧
      (m.code ≠ below →
        num * stepsPerUnit - Grid.steps precision below * den < m.distance num den)) ∨
    (below + 1 ≤ m.code ∧
      Grid.steps precision (below + 1) * den - num * stepsPerUnit ≤ m.distance num den ∧
      (m.code ≠ below + 1 →
        Grid.steps precision (below + 1) * den - num * stepsPerUnit < m.distance num den)) := by
  have hmono := Grid.strictMono_steps (by decide : 0 < precision)
  rw [distance, steps, Nat.dist]
  rcases Nat.lt_or_ge below m.code with habove | hbelow
  · have habove : below + 1 ≤ m.code := habove
    have hle := Nat.mul_le_mul_right den (hmono.monotone habove)
    refine Or.inr ⟨habove, by omega, fun hne => ?_⟩
    have hlt := Nat.mul_lt_mul_of_pos_right (hmono (Nat.lt_of_le_of_ne habove (Ne.symm hne))) hden
    omega
  · have hle := Nat.mul_le_mul_right den (hmono.monotone hbelow)
    refine Or.inl ⟨hbelow, by omega, fun hne => ?_⟩
    have hlt := Nat.mul_lt_mul_of_pos_right (hmono (Nat.lt_of_le_of_ne hbelow hne)) hden
    omega

theorem isNearest_infinity {num den : Nat} (hden : 0 < den) {m : Magnitude}
    (hcode : m.code = infinityCode) (hle : m.steps * den ≤ num * stepsPerUnit) :
    m.IsNearest num den := by
  apply isNearest_of_distance_lt
  intro other hother
  have hlt : other.code < m.code := by
    have hlast := other.code_le
    have hne := code_ne_code hother
    omega
  have hsteps := steps_mul_lt hden hlt
  rw [distance, distance, Nat.dist, Nat.dist]
  omega

theorem isNearest_ofRatio (num : Nat) {den : Nat} (hden : 0 < den) :
    (ofRatio num den).IsNearest num den := by
  obtain ⟨hlow, hhigh⟩ := Grid.steps_floorCode_mul_le (by decide : 0 < precision)
    (num * stepsPerUnit) hden
  have hnearest := Grid.nearest_cases precision (num * stepsPerUnit) den rfl rfl rfl
  have hcases := distance_cases hden hlow hhigh
  have hcode : (ofRatio num den).code =
    min (Grid.nearest precision (num * stepsPerUnit) den) infinityCode := rfl
  generalize ofRatio num den = m at hcode ⊢
  generalize Grid.floorCode precision (num * stepsPerUnit / den) = below at *
  have hdistance : m.distance num den =
    Nat.dist (num * stepsPerUnit) (Grid.steps precision m.code * den) := rfl
  rw [Nat.dist] at hdistance
  by_cases hfits : Grid.nearest precision (num * stepsPerUnit) den ≤ infinityCode
  · rw [Nat.min_eq_left hfits] at hcode
    rcases hnearest with ⟨hbelow, hle, heven⟩ | ⟨habove, hle, heven⟩
    · rw [hcode, hbelow] at hdistance
      constructor
      · intro other
        rcases hcases other with hother | hother <;> omega
      · intro other hother htie
        have hother := code_ne_code hother
        rcases hcases other with hside | hside <;> omega
    · rw [hcode, habove] at hdistance
      constructor
      · intro other
        rcases hcases other with hother | hother <;> omega
      · intro other hother htie
        have hother := code_ne_code hother
        rcases hcases other with hside | hside <;> omega
  · -- The quotient is above all magnitudes, and infinity is the last one.
    rw [Nat.min_eq_right (by omega)] at hcode
    have hmono := Grid.strictMono_steps (by decide : 0 < precision)
    have hle := Nat.mul_le_mul_right den (hmono.monotone (show m.code ≤ below by omega))
    exact isNearest_infinity hden hcode (Nat.le_trans hle hlow)

theorem isNearest_zero {num den : Nat} (h : 2 * (num * stepsPerUnit) < den) :
    zero.IsNearest num den := by
  apply isNearest_of_distance_lt
  intro other hother
  have hcode : 0 < other.code := Nat.pos_of_ne_zero (code_ne_code hother)
  have hsteps := steps_mul_lt (m := zero) (by omega : 0 < den) hcode
  have hzero : zero.steps = 0 := Grid.steps_zero _
  have hone : 1 * den ≤ other.steps * den := by
    apply Nat.mul_le_mul_right
    rw [hzero] at hsteps
    exact Nat.pos_of_mul_pos_right (by omega : 0 < other.steps * den)
  simp only [distance, Nat.dist, hzero]
  omega

end Magnitude

theorem pow_two_le_pow_ten (n : Nat) : 2 ^ (3 * n) ≤ 10 ^ n := by
  rw [Nat.pow_mul]
  exact Nat.pow_le_pow_left (by decide) n

theorem two_mul_steps_lt_pow_ten {coefficient places : Nat}
    (h : 400 + (coefficient.log2 / 3 + 1) < places) :
    2 * (coefficient * stepsPerUnit) < 10 ^ places := by
  have hcoefficient : coefficient < 2 ^ (3 * (coefficient.log2 / 3 + 1)) :=
    Nat.lt_of_lt_of_le Nat.lt_log2_self (Nat.pow_le_pow_right (by decide) (by omega))
  obtain ⟨margin, hmargin, hplaces⟩ : ∃ margin, 1074 < 3 * margin ∧
      coefficient.log2 / 3 + 1 + margin ≤ places := ⟨400, by decide, by omega⟩
  have hunit : 2 * stepsPerUnit ≤ 2 ^ (3 * margin) := by
    unfold stepsPerUnit
    generalize 1074 = digits at hmargin
    rw [Nat.pow_eq, ← Nat.pow_succ']
    exact Nat.pow_le_pow_right (by decide) hmargin
  calc 2 * (coefficient * stepsPerUnit)
      = coefficient * (2 * stepsPerUnit) := Nat.mul_left_comm ..
    _ ≤ coefficient * 2 ^ (3 * margin) := Nat.mul_le_mul_left _ hunit
    _ < 2 ^ (3 * (coefficient.log2 / 3 + 1)) * 2 ^ (3 * margin) :=
        Nat.mul_lt_mul_of_pos_right hcoefficient (Nat.two_pow_pos _)
    _ = 2 ^ (3 * (coefficient.log2 / 3 + 1 + margin)) := by rw [← Nat.pow_add, ← Nat.mul_add]
    _ ≤ 10 ^ (coefficient.log2 / 3 + 1 + margin) := pow_two_le_pow_ten _
    _ ≤ 10 ^ places := Nat.pow_le_pow_right (by decide) hplaces

/-- The digits of a decimal, read without the point and divided by a power of ten, are correctly
rounded, be they ever so many. -/
theorem Decimal.isNearest_ofParts (whole fraction : List Char) :
    (Decimal.ofParts whole fraction 0).toMagnitude.IsNearest
      (ofDecimalDigits (whole ++ fraction)) (10 ^ fraction.length) := by
  have hden : 0 < 10 ^ fraction.length := Nat.pow_pos (by decide)
  rw [ofParts, toMagnitude, roundWith]
  dsimp only
  generalize ofDecimalDigits (whole ++ fraction) = coefficient
  generalize fraction.length = places at hden ⊢
  split
  · rename_i hzero
    apply Magnitude.isNearest_zero
    rw [hzero, Nat.zero_mul, Nat.mul_zero]
    exact hden
  · have hsmall : ¬ 400 < 0 - (places : Int) := by omega
    rw [if_neg hsmall]
    split
    · have hplaces : places = 0 := by omega
      subst hplaces
      have hwhole : coefficient * Nat.pow 10 (0 - ((0 : Nat) : Int)).toNat = coefficient :=
        Nat.mul_one _
      rw [hwhole]
      exact Magnitude.isNearest_ofRatio _ (Nat.pow_pos (by decide))
    · split
      · exact Magnitude.isNearest_zero (two_mul_steps_lt_pow_ten (by omega))
      · have hpower : (-(0 - (places : Int))).toNat = places := by omega
        rw [hpower]
        exact Magnitude.isNearest_ofRatio _ hden

end Phrasebook.Number
