import Mathlib.Tactic.Ring
import Phrasebook.Number.Binary64

/-!
# Whole numbers on the floating grid

A whole number becomes the nearest multiple of a power of two when it is made a number of 64
bits, and truncating that gives the multiple back. Numbers of at most 53 binary digits are kept.
-/

namespace Phrasebook.Number

/-- The quotient of two numbers rounded to the nearest; between two equally near ones it is the
even one. -/
def nearestQuotient (n step : Nat) : Nat :=
  if 2 * (n % step) < step then n / step
  else if step < 2 * (n % step) then n / step + 1
  else if n / step % 2 = 0 then n / step
  else n / step + 1

def nearestMultiple (step n : Nat) : Nat := nearestQuotient n step * step

theorem nearestQuotient_cases (n : Nat) {step : Nat} (hstep : 0 < step) :
    nearestQuotient n step = n / step ∨
      (nearestQuotient n step = n / step + 1 ∧ 0 < n % step) := by
  unfold nearestQuotient
  split
  · exact Or.inl rfl
  · split
    · exact Or.inr ⟨rfl, by omega⟩
    · split
      · exact Or.inl rfl
      · exact Or.inr ⟨rfl, by omega⟩

theorem nearestQuotient_mul (n step : Nat) {c : Nat} (hc : 0 < c) :
    nearestQuotient (n * c) (step * c) = nearestQuotient n step := by
  have htwice : 2 * (n % step * c) = 2 * (n % step) * c := (Nat.mul_assoc _ _ _).symm
  unfold nearestQuotient
  rw [Nat.mul_div_mul_right _ _ hc, Nat.mul_mod_mul_right, htwice]
  simp only [Nat.mul_lt_mul_right hc]

theorem dvd_nearestMultiple (step n : Nat) : step ∣ nearestMultiple step n :=
  Nat.dvd_mul_left _ _

theorem nearestMultiple_of_dvd {step n : Nat} (hstep : 0 < step) (h : step ∣ n) :
    nearestMultiple step n = n := by
  have hmod := Nat.mod_eq_zero_of_dvd h
  rcases nearestQuotient_cases n hstep with hq | ⟨-, hpos⟩
  · rw [nearestMultiple, hq, Nat.div_mul_cancel h]
  · omega

theorem nearestMultiple_le {step n bound : Nat} (hstep : 0 < step) (hdvd : step ∣ bound)
    (hn : n ≤ bound) : nearestMultiple step n ≤ bound := by
  have hsplit : n / step * step + n % step = n := Nat.div_add_mod' n step
  rcases nearestQuotient_cases n hstep with hq | ⟨hq, hpos⟩
  · rw [nearestMultiple, hq]
    omega
  · obtain ⟨k, rfl⟩ := hdvd
    have hlt : n / step * step < k * step := by
      rw [Nat.mul_comm k]
      omega
    rw [nearestMultiple, hq, Nat.mul_comm step]
    exact Nat.mul_le_mul_right _ (Nat.lt_of_mul_lt_mul_right hlt)

namespace Grid

/-- A code is a significand with a scale; the power of two after the largest significand is the
smallest one of the next scale. -/
theorem steps_add {p : Nat} (hp : 0 < p) (scale : Nat) {significand : Nat}
    (hlow : 2 ^ (p - 1) ≤ significand) (hhigh : significand ≤ 2 ^ p) :
    steps p (scale * 2 ^ (p - 1) + significand) = significand * 2 ^ scale := by
  have hpow : 2 ^ (p - 1) * 2 = 2 ^ p := Nat.two_pow_pred_mul_two hp
  have hpos : 0 < 2 ^ (p - 1) := Nat.two_pow_pos _
  rw [← hpow] at hhigh
  simp only [steps, Nat.pow_eq]
  generalize 2 ^ (p - 1) = half at *
  rcases Nat.lt_or_eq_of_le hhigh with hlt | rfl
  · have hdiv : (scale * half + significand) / half = scale + 1 := by
      have hone : significand / half = 1 := by
        apply Nat.div_eq_of_lt_le <;> omega
      rw [Nat.mul_comm, Nat.mul_add_div hpos, hone]
    have hmod : (scale * half + significand) % half = significand - half := by
      rw [Nat.mul_comm, Nat.mul_add_mod, Nat.mod_eq_sub_mod hlow, Nat.mod_eq_of_lt (by omega)]
    simp only [hdiv, hmod]
    rw [if_neg (by omega), Nat.add_sub_cancel' hlow, Nat.add_sub_cancel]
  · -- The largest significand was rounded up: the code is the first one of the next scale.
    rw [Nat.mul_comm half 2]
    have hdiv : (scale * half + 2 * half) / half = scale + 2 := by
      rw [← Nat.add_mul, Nat.mul_div_cancel _ hpos]
    have hmod : (scale * half + 2 * half) % half = 0 := by
      rw [← Nat.add_mul, Nat.mul_mod_left]
    simp only [hdiv, hmod]
    rw [if_neg (by omega)]
    simp only [Nat.add_zero, show scale + 2 - 1 = scale + 1 by omega, Nat.pow_succ]
    ring

def spacing (p n : Nat) : Nat := 2 ^ (n.log2 + 1 - p)

theorem spacing_pos (p n : Nat) : 0 < spacing p n := Nat.two_pow_pos _

theorem floorCode_eq (p n : Nat) :
    floorCode p n = (n.log2 + 1 - p) * 2 ^ (p - 1) + n / spacing p n := rfl

theorem div_spacing_lt (p n : Nat) : n / spacing p n < 2 ^ p := by
  rw [spacing, Nat.div_lt_iff_lt_mul (Nat.two_pow_pos _), ← Nat.pow_add]
  exact Nat.lt_of_lt_of_le Nat.lt_log2_self (Nat.pow_le_pow_right (by decide) (by omega))

theorem le_div_spacing {p n : Nat} (hp : 0 < p) (hn : p ≤ n.log2 + 1) (hpos : n ≠ 0) :
    2 ^ (p - 1) ≤ n / spacing p n := by
  rw [spacing, Nat.le_div_iff_mul_le (Nat.two_pow_pos _), ← Nat.pow_add,
    show p - 1 + (n.log2 + 1 - p) = n.log2 by omega]
  exact Nat.log2_self_le hpos

theorem steps_of_lt {p n : Nat} (hp : 0 < p) (hn : n ≤ 2 ^ p) : steps p n = n := by
  rcases Nat.lt_or_ge n (2 ^ (p - 1)) with hlt | hge
  · simp [steps, Nat.div_eq_of_lt hlt]
  · have h := steps_add hp 0 hge hn
    simpa using h

theorem steps_floorCode {p : Nat} (hp : 0 < p) (n : Nat) :
    steps p (floorCode p n) = n / spacing p n * spacing p n ∧
      steps p (floorCode p n + 1) = (n / spacing p n + 1) * spacing p n := by
  have hlt := div_spacing_lt p n
  by_cases hlarge : n ≠ 0 ∧ p ≤ n.log2 + 1
  · have hle := le_div_spacing hp hlarge.2 hlarge.1
    exact ⟨steps_add hp _ hle (Nat.le_of_lt hlt), steps_add hp _ (Nat.le_succ_of_le hle) hlt⟩
  · have hshift : n.log2 + 1 - p = 0 := by
      by_cases hzero : n = 0
      · subst hzero
        simp only [Nat.log2_zero]
        omega
      · omega
    simp only [floorCode_eq, spacing, hshift, Nat.pow_zero, Nat.div_one, Nat.mul_one,
      Nat.zero_mul, Nat.zero_add] at hlt ⊢
    exact ⟨steps_of_lt hp (Nat.le_of_lt hlt), steps_of_lt hp hlt⟩

/-- The nearest code to a whole number of steps stands for the nearest multiple of the spacing. -/
theorem steps_nearest {p : Nat} (hp : 2 ≤ p) (n : Nat) :
    steps p (nearest p n 1) = nearestMultiple (spacing p n) n := by
  obtain ⟨hbelow, habove⟩ := steps_floorCode (by omega : 0 < p) n
  have hsplit : n / spacing p n * spacing p n + n % spacing p n = n := Nat.div_add_mod' n _
  have hparity : floorCode p n % 2 = n / spacing p n % 2 := by
    have hhalf : 2 ^ (p - 1 - 1) * 2 = 2 ^ (p - 1) := Nat.two_pow_pred_mul_two (by omega)
    rw [floorCode_eq, ← hhalf, ← Nat.mul_assoc, Nat.mul_comm _ 2, Nat.mul_add_mod]
  have hmiddle : (steps p (floorCode p n) + steps p (floorCode p n + 1)) * 1 =
      2 * (n / spacing p n * spacing p n) + spacing p n := by
    rw [hbelow, habove]
    ring
  have hbelow_iff : 2 * n < 2 * (n / spacing p n * spacing p n) + spacing p n ↔
      2 * (n % spacing p n) < spacing p n := by omega
  have habove_iff : 2 * (n / spacing p n * spacing p n) + spacing p n < 2 * n ↔
      spacing p n < 2 * (n % spacing p n) := by omega
  unfold nearest nearestMultiple nearestQuotient
  simp only [Nat.div_one, hmiddle, hparity, hbelow_iff, habove_iff]
  split
  · exact hbelow
  · split
    · exact habove
    · split
      · exact hbelow
      · exact habove

theorem log2_mul_two_pow {n : Nat} (hn : n ≠ 0) (e : Nat) : (n * 2 ^ e).log2 = n.log2 + e := by
  rw [Nat.log2_eq_iff (Nat.mul_ne_zero hn (Nat.two_pow_pos e).ne'), Nat.pow_add,
    Nat.add_right_comm, Nat.pow_add 2 (n.log2 + 1)]
  exact ⟨Nat.mul_le_mul_right _ (Nat.log2_self_le hn),
    (Nat.mul_lt_mul_right (Nat.two_pow_pos e)).mpr Nat.lt_log2_self⟩

theorem nearestMultiple_spacing_mul (p n e : Nat) :
    nearestMultiple (spacing p (n * 2 ^ e)) (n * 2 ^ e) =
      nearestMultiple (spacing p n) n * 2 ^ e := by
  rcases Nat.eq_zero_or_pos n with rfl | hpos
  · simp [nearestMultiple, nearestQuotient]
  · have hlog := log2_mul_two_pow (Nat.ne_of_gt hpos) e
    rcases Nat.lt_or_ge (n.log2 + 1) p with hsmall | hlarge
    · have hone : spacing p n = 1 := by
        rw [spacing, Nat.sub_eq_zero_of_le (Nat.le_of_lt hsmall), Nat.pow_zero]
      have hdvd : spacing p (n * 2 ^ e) ∣ n * 2 ^ e := by
        rw [spacing, hlog]
        exact Nat.dvd_mul_left_of_dvd (Nat.pow_dvd_pow 2 (by omega)) n
      rw [hone, nearestMultiple_of_dvd (by decide) (Nat.one_dvd n),
        nearestMultiple_of_dvd (spacing_pos _ _) hdvd]
    · have hscale : spacing p (n * 2 ^ e) = spacing p n * 2 ^ e := by
        rw [spacing, spacing, hlog, ← Nat.pow_add]
        congr 1
        omega
      rw [hscale, nearestMultiple, nearestMultiple, nearestQuotient_mul _ _ (Nat.two_pow_pos e)]
      ring

theorem spacing_dvd_of_le {p n : Nat} (hp : 0 < p) (hn : n ≤ 2 ^ p) : spacing p n ∣ n := by
  rcases Nat.lt_or_eq_of_le hn with hlt | rfl
  · rcases Nat.eq_zero_or_pos n with rfl | hpos
    · exact Nat.dvd_zero _
    · have hlog := (Nat.log2_lt (Nat.ne_of_gt hpos)).mpr hlt
      rw [spacing, Nat.sub_eq_zero_of_le hlog]
      exact Nat.one_dvd n
  · rw [spacing, Nat.log2_two_pow, Nat.add_sub_cancel_left]
    exact Nat.pow_dvd_pow 2 hp

theorem floorCode_lt {p : Nat} (hp : 0 < p) (n : Nat) :
    floorCode p n < (n.log2 + 1 - p + 2) * 2 ^ (p - 1) := by
  have hlt := div_spacing_lt p n
  have hpow : 2 ^ (p - 1) * 2 = 2 ^ p := Nat.two_pow_pred_mul_two hp
  rw [floorCode_eq, Nat.add_mul, Nat.mul_comm 2, hpow]
  exact Nat.add_lt_add_left hlt _

theorem nearest_le (p n den : Nat) : nearest p n den ≤ floorCode p (n / den) + 1 := by
  unfold nearest
  dsimp only
  split
  · omega
  · split
    · omega
    · split <;> omega

end Grid

namespace Magnitude

theorem nearest_le_infinityCode {n : Nat} (hn : n < 2 ^ 64) :
    Grid.nearest precision (n * stepsPerUnit) 1 ≤ infinityCode := by
  have hlog : (n * stepsPerUnit).log2 < 64 + 1074 := by
    unfold stepsPerUnit
    generalize 1074 = e
    rw [Nat.pow_eq]
    rcases Nat.eq_zero_or_pos n with rfl | hpos
    · simp
    · rw [Grid.log2_mul_two_pow (Nat.ne_of_gt hpos)]
      exact Nat.add_lt_add_right ((Nat.log2_lt (Nat.ne_of_gt hpos)).mpr hn) e
  have hnearest := Grid.nearest_le precision (n * stepsPerUnit) 1
  have hfloor := Grid.floorCode_lt (by decide : 0 < precision) (n * stepsPerUnit)
  have hinfinity : infinityCode = 2047 * 2 ^ (precision - 1) := by decide
  have hscale : ((n * stepsPerUnit).log2 + 1 - precision + 2) * 2 ^ (precision - 1) ≤
      infinityCode := by
    rw [hinfinity]
    apply Nat.mul_le_mul_right
    have hprecision : precision = 53 := rfl
    omega
  rw [Nat.div_one] at hnearest
  omega

theorem floor_ofRatio_one {n : Nat} (hn : n < 2 ^ 64) :
    (ofRatio n 1).floor = nearestMultiple (Grid.spacing precision n) n := by
  have hcode : (ofRatio n 1).code = Grid.nearest precision (n * stepsPerUnit) 1 :=
    Nat.min_eq_left (nearest_le_infinityCode hn)
  rw [floor, steps, hcode, Grid.steps_nearest (by decide)]
  unfold stepsPerUnit
  generalize 1074 = e
  rw [Nat.pow_eq, Grid.nearestMultiple_spacing_mul, Nat.mul_div_cancel _ (Nat.two_pow_pos _)]

end Magnitude

namespace Binary64

/-- The integer that an integer of 64 bits becomes as a number: rounded to the digits of the
grid and brought back into the range of 64 bits. -/
def rounded (n : Int64) : Int64 :=
  let nearest := nearestMultiple (Grid.spacing precision n.toInt.natAbs) n.toInt.natAbs
  clamp (if n < 0 then -nearest else nearest)

theorem natAbs_toInt_le (n : Int64) : n.toInt.natAbs ≤ 2 ^ 63 := by
  have hle := n.le_toInt
  have hlt := n.toInt_lt
  omega

theorem truncate_ofInt (n : Int64) : (ofInt n.toInt).truncate = rounded n := by
  have hle := natAbs_toInt_le n
  have hneg : n < 0 ↔ n.toInt < 0 := Int64.lt_iff_toInt_lt
  rw [ofInt, truncate, Magnitude.floor_ofRatio_one (by omega), rounded]
  simp only [decide_eq_true_eq, hneg]

theorem clamp_toInt (n : Int64) : clamp n.toInt = n := by
  rw [clamp, Int.min_eq_right n.toInt_le, Int.max_eq_right n.minValue_le_toInt, n.ofInt_toInt]

theorem toInt_clamp {n : Int} (hle : -2 ^ 63 ≤ n) (hlt : n < 2 ^ 63) : (clamp n).toInt = n := by
  rw [clamp, Int64.toInt_maxValue, Int64.toInt_minValue, Int.min_eq_right (by omega),
    Int.max_eq_right hle, Int64.toInt_ofInt_of_le hle hlt]

theorem nearest_natAbs_le (n : Int64) :
    nearestMultiple (Grid.spacing precision n.toInt.natAbs) n.toInt.natAbs ≤ 2 ^ 63 := by
  have hle := natAbs_toInt_le n
  apply nearestMultiple_le (Grid.spacing_pos _ _) _ hle
  apply Nat.pow_dvd_pow
  have hlog : n.toInt.natAbs.log2 < 64 := by
    rcases Nat.eq_zero_or_pos n.toInt.natAbs with hzero | hpos
    · rw [hzero]
      decide
    · rw [Nat.log2_lt (Nat.ne_of_gt hpos)]
      omega
  have hprecision : precision = 53 := rfl
  omega

theorem rounded_maxValue : rounded Int64.maxValue = Int64.maxValue := by decide +kernel

/-- What rounds to itself has no more digits than the grid, or is the greatest integer of 64
bits, which is rounded out of the range. -/
theorem rounded_eq_self_iff (n : Int64) :
    rounded n = n ↔
      Grid.spacing precision n.toInt.natAbs ∣ n.toInt.natAbs ∨ n = Int64.maxValue := by
  have hneg : n < 0 ↔ n.toInt < 0 := Int64.lt_iff_toInt_lt
  constructor
  · intro h
    have hdvd := dvd_nearestMultiple (Grid.spacing precision n.toInt.natAbs) n.toInt.natAbs
    have hle := nearest_natAbs_le n
    simp only [rounded, hneg] at h
    generalize nearestMultiple (Grid.spacing precision n.toInt.natAbs) n.toInt.natAbs = nearest
      at h hdvd hle
    by_cases htop : n.toInt < 0 ∨ nearest ≠ 2 ^ 63
    · left
      have hvalue := congrArg Int64.toInt h
      rw [toInt_clamp (by split <;> omega) (by split <;> omega)] at hvalue
      have hsame : nearest = n.toInt.natAbs := by
        split at hvalue <;> omega
      rwa [hsame] at hdvd
    · -- Only `2 ^ 63` is clamped, and the greatest integer is what it becomes.
      right
      rw [not_or, not_not] at htop
      rw [if_neg htop.1, htop.2] at h
      rw [← h]
      decide
  · rintro (hdvd | rfl)
    · have hsign : (if n < 0 then -(n.toInt.natAbs : Int) else n.toInt.natAbs) = n.toInt := by
        simp only [hneg]
        split <;> omega
      rw [rounded, nearestMultiple_of_dvd (Grid.spacing_pos _ _) hdvd]
      simp only [hsign, clamp_toInt]
    · exact rounded_maxValue

theorem rounded_of_natAbs_le {n : Int64} (hn : n.toInt.natAbs ≤ 2 ^ precision) :
    rounded n = n :=
  (rounded_eq_self_iff n).mpr (Or.inl (Grid.spacing_dvd_of_le (by decide) hn))

end Binary64

end Phrasebook.Number
