import Phrasebook.Proofs.InfiniteMagnitudes
import Phrasebook.Proofs.ShortestDecimals

/-!
# Searching for the shortest decimal

The points of a decimal grid that read back as a magnitude lie around it without a gap. So if there
are any, one of the two next to the magnitude is among them, and the search finds the one nearest to
it on the coarsest grid that has any.
-/

namespace Phrasebook.Number

namespace Magnitude

/-- A magnitude is the correct rounding of nothing beyond the middles to its neighbours. -/
theorem middles_of_isNearest {num den : Nat} {m : Magnitude} (hden : 0 < den)
    (hcode : 0 < m.code) (hfinite : m ≠ infinity) (h : m.IsNearest num den) :
    Grid.steps precision (m.code - 1) * den + m.steps * den ≤ 2 * (num * stepsPerUnit) ∧
      2 * (num * stepsPerUnit) ≤ m.steps * den + Grid.steps precision (m.code + 1) * den ∧
      (m.code % 2 = 0 ∨
        (Grid.steps precision (m.code - 1) * den + m.steps * den < 2 * (num * stepsPerUnit) ∧
          2 * (num * stepsPerUnit) < m.steps * den + Grid.steps precision (m.code + 1) * den)) := by
  have hlast := code_le_of_ne_infinity hfinite
  have hinfinity : 0 < infinityCode := by decide
  let below : Magnitude := ⟨m.code - 1, by omega⟩
  let above : Magnitude := ⟨m.code + 1, by omega⟩
  have hlow : below.steps * den < m.steps * den :=
    steps_mul_lt hden (show m.code - 1 < m.code by omega)
  have hhigh : m.steps * den < above.steps * den := steps_mul_lt hden (Nat.lt_succ_self m.code)
  have hbelow := h.distance_le below
  have habove := h.distance_le above
  have hbelow_tie := h.even_of_tie below fun heq => by simp [heq] at hlow
  have habove_tie := h.even_of_tie above fun heq => by simp [heq] at hhigh
  have hbelow_steps : below.steps = Grid.steps precision (m.code - 1) := rfl
  have habove_steps : above.steps = Grid.steps precision (m.code + 1) := rfl
  rw [← hbelow_steps, ← habove_steps]
  simp only [distance, Nat.dist] at hbelow habove hbelow_tie habove_tie
  omega

end Magnitude

namespace Shortest

theorem readsBack_iff_isNearest {m : Magnitude} (hcode : 0 < m.code) (hfinite : m ≠ .infinity)
    (n exponent : Nat) :
    readsBack m.code n exponent = true ↔ m.IsNearest (n * 10 ^ exponent) (10 ^ offset) := by
  refine ⟨isNearest_of_readsBack, fun h => ?_⟩
  obtain ⟨hlow, hhigh, heven⟩ := Magnitude.middles_of_isNearest pow_offset_pos hcode hfinite h
  have hsteps : m.steps = Grid.steps precision m.code := rfl
  unfold readsBack
  simp only [Nat.pow_eq, Nat.add_mul, ← hsteps]
  rw [Nat.mul_comm _ 2]
  split
  all_goals
    simp only [Bool.and_eq_true, decide_eq_true_eq]
    omega

/-! ## One grid -/

section Grid

variable {code : Nat} (hcode : 0 < code) (exponent : Nat)

theorem scaled_div_bounds (code : Nat) :
    scaled code / 10 ^ exponent * (10 ^ exponent * stepsPerUnit) ≤
        Grid.steps precision code * 10 ^ offset ∧
      Grid.steps precision code * 10 ^ offset <
        (scaled code / 10 ^ exponent + 1) * (10 ^ exponent * stepsPerUnit) := by
  have hstep : 0 < 10 ^ exponent * stepsPerUnit :=
    Nat.mul_pos (Nat.pow_pos (by decide)) stepsPerUnit_pos
  have hquotient : scaled code / 10 ^ exponent =
      Grid.steps precision code * 10 ^ offset / (10 ^ exponent * stepsPerUnit) := by
    rw [scaled, Nat.pow_eq, Nat.div_div_eq_div_mul, Nat.mul_comm stepsPerUnit]
  rw [hquotient]
  exact ⟨Nat.div_mul_le_self _ _, Nat.lt_mul_of_div_lt (Nat.lt_succ_self _) hstep⟩

include hcode

theorem readsBack_between {j n : Nat} (hj : readsBack code j exponent = true)
    (h : (j ≤ n ∧ n * (10 ^ exponent * stepsPerUnit) ≤ Grid.steps precision code * 10 ^ offset) ∨
      (n ≤ j ∧ Grid.steps precision code * 10 ^ offset ≤ n * (10 ^ exponent * stepsPerUnit))) :
    readsBack code n exponent = true := by
  have hmono := Grid.strictMono_steps (by decide : 0 < precision)
  have hbelow := Nat.mul_lt_mul_of_pos_right
    (hmono (Nat.sub_lt hcode Nat.one_pos)) pow_offset_pos
  have habove := Nat.mul_lt_mul_of_pos_right (hmono (Nat.lt_add_one code)) pow_offset_pos
  have hpoints : (j ≤ n → j * (10 ^ exponent * stepsPerUnit) ≤
        n * (10 ^ exponent * stepsPerUnit)) ∧
      (n ≤ j → n * (10 ^ exponent * stepsPerUnit) ≤ j * (10 ^ exponent * stepsPerUnit)) :=
    ⟨Nat.mul_le_mul_right _, Nat.mul_le_mul_right _⟩
  unfold readsBack at hj ⊢
  simp only [Nat.pow_eq, Nat.add_mul, Nat.mul_assoc _ _ stepsPerUnit] at hj ⊢
  by_cases heven : code % 2 = 0
  all_goals
    simp only [heven, if_true, if_false, Bool.and_eq_true, decide_eq_true_eq] at hj ⊢
    omega

theorem readsBack_neighbour {j : Nat} (hj : readsBack code j exponent = true) :
    (j ≤ scaled code / 10 ^ exponent ∧
      readsBack code (scaled code / 10 ^ exponent) exponent = true) ∨
    (scaled code / 10 ^ exponent + 1 ≤ j ∧
      readsBack code (scaled code / 10 ^ exponent + 1) exponent = true) := by
  obtain ⟨hlow, hhigh⟩ := scaled_div_bounds exponent code
  rcases Nat.lt_or_ge (scaled code / 10 ^ exponent) j with habove | hbelow
  · exact Or.inr ⟨habove,
      readsBack_between hcode exponent hj (Or.inr ⟨habove, Nat.le_of_lt hhigh⟩)⟩
  · exact Or.inl ⟨hbelow, readsBack_between hcode exponent hj (Or.inl ⟨hbelow, hlow⟩)⟩

theorem readsBack_eq_false_of_onGrid? {tie : Tie} (h : onGrid? tie code exponent = none)
    (j : Nat) : readsBack code j exponent = false := by
  rw [Bool.eq_false_iff]
  intro hj
  simp only [onGrid?, Nat.pow_eq] at h
  rcases readsBack_neighbour hcode exponent hj with ⟨-, hlower⟩ | ⟨-, hupper⟩
  · rw [hlower] at h
    split at h <;> simp at *
  · rw [hupper] at h
    split at h <;> simp at *

omit hcode in
theorem lowerIsNearer_up (n : Nat) :
    lowerIsNearer .up code n exponent =
      decide (Grid.steps precision code * 10 ^ offset * 2 <
        2 * (n * (10 ^ exponent * stepsPerUnit)) + 10 ^ exponent * stepsPerUnit) := by
  have hmiddle : (2 * n + 1) * 10 ^ exponent * stepsPerUnit =
      2 * (n * (10 ^ exponent * stepsPerUnit)) + 10 ^ exponent * stepsPerUnit := by
    rw [Nat.mul_assoc, Nat.add_mul, Nat.one_mul, Nat.mul_assoc]
  have htie : (Tie.up == Tie.toEven) = false := rfl
  simp only [lowerIsNearer, Nat.pow_eq, hmiddle, htie, Bool.and_false, Bool.false_and,
    Bool.or_false]

/-- Of all points of a grid that read back, the one that is taken is nearest to the magnitude, and
the greater one of two that are equally near. -/
theorem dist_lt_of_onGrid? {n j : Nat} (h : onGrid? .up code exponent = some n)
    (hj : readsBack code j exponent = true) (hne : j ≠ n) :
    let value := Grid.steps precision code * 10 ^ offset
    let step := 10 ^ exponent * stepsPerUnit
    Nat.dist (n * step) value < Nat.dist (j * step) value ∨
      (Nat.dist (j * step) value = Nat.dist (n * step) value ∧ j < n) := by
  intro value step
  obtain ⟨hlow, hhigh⟩ := scaled_div_bounds exponent code
  have hneighbour := readsBack_neighbour hcode exponent hj
  have hvalue : Grid.steps precision code * 10 ^ offset = value := rfl
  have hstep : 10 ^ exponent * stepsPerUnit = step := rfl
  simp only [onGrid?, Nat.pow_eq, lowerIsNearer_up, decide_eq_true_eq, hvalue, hstep] at h
  rw [hvalue, hstep] at hlow hhigh
  generalize scaled code / 10 ^ exponent = below at *
  -- Points farther out are at least one step of the grid farther away.
  have hout : j < below → j * step + step ≤ below * step := fun hlt => by
    rw [← Nat.succ_mul]
    exact Nat.mul_le_mul_right step hlt
  have hbeyond : below + 1 < j → below * step + step + step ≤ j * step := fun hlt => by
    rw [← Nat.succ_mul, ← Nat.succ_mul]
    exact Nat.mul_le_mul_right step hlt
  have hhere : j = below → j * step = below * step := fun heq => by rw [heq]
  have hnext : j = below + 1 → j * step = below * step + step := fun heq => by
    rw [heq, Nat.succ_mul]
  have hpos : 0 < step := Nat.mul_pos (Nat.pow_pos (by decide)) stepsPerUnit_pos
  rw [Nat.succ_mul] at hhigh
  simp only [Nat.dist]
  split at h
  · split at h
    · obtain rfl := Option.some.inj h
      omega
    · obtain rfl := Option.some.inj h
      rw [Nat.succ_mul]
      omega
  · rename_i hupper
    obtain rfl := Option.some.inj h
    simp only [hupper, Bool.false_eq_true, and_false, or_false] at hneighbour
    omega
  · rename_i hlower _
    obtain rfl := Option.some.inj h
    simp only [hlower, Bool.false_eq_true, and_false, false_or] at hneighbour
    rw [Nat.succ_mul]
    omega
  · cases h

end Grid

/-! ## All grids -/

theorem readsBack_eq_false_of_lt {code exponent : Nat} (hcode : 0 < code)
    (h : (Nat.toDigits 10 (scaled code)).length < exponent) (j : Nat) :
    readsBack code j exponent = false := by
  generalize hlength : (Nat.toDigits 10 (scaled code)).length = length at h
  have hlength_pos : 0 < length := hlength ▸ Nat.length_toDigits_pos
  have hscaled : scaled code < 10 ^ length :=
    (Nat.length_toDigits_le_iff (by decide) hlength_pos).mp (Nat.le_of_eq hlength)
  have hmono := Grid.strictMono_steps (by decide : 0 < precision)
  have hvalue : 0 < Grid.steps precision code * 10 ^ offset :=
    Nat.mul_pos (Nat.lt_of_le_of_lt (Nat.zero_le _) (hmono hcode)) pow_offset_pos
  have hnext := Nat.mul_le_mul_right (10 ^ offset)
    (Grid.steps_succ_le_two_mul (by decide : 0 < precision) hcode)
  rw [Nat.mul_assoc] at hnext
  have hbound : Grid.steps precision code * 10 ^ offset < 10 ^ length * stepsPerUnit := by
    have hhigh := (scaled_div_bounds 0 code).2
    simp only [Nat.pow_zero, Nat.div_one, Nat.one_mul] at hhigh
    exact Nat.lt_of_lt_of_le hhigh (Nat.mul_le_mul_right _ hscaled)
  -- The first point of the grid but zero is already more than five times as great.
  have hgrid : 10 * (10 ^ length * stepsPerUnit) ≤ 10 ^ exponent * stepsPerUnit := by
    rw [← Nat.mul_assoc, ← Nat.pow_succ']
    exact Nat.mul_le_mul_right _ (Nat.pow_le_pow_right (by decide) h)
  have hpoint : j = 0 ∨ 10 ^ exponent * stepsPerUnit ≤ j * (10 ^ exponent * stepsPerUnit) := by
    rcases Nat.eq_zero_or_pos j with hzero | hpos
    · exact Or.inl hzero
    · exact Or.inr (Nat.le_mul_of_pos_left _ hpos)
  rw [Bool.eq_false_iff]
  intro hj
  unfold readsBack at hj
  simp only [Nat.pow_eq, Nat.add_mul, Nat.mul_assoc _ _ stepsPerUnit] at hj
  split at hj
  all_goals
    simp only [Bool.and_eq_true, decide_eq_true_eq] at hj
    rcases hpoint with rfl | hpoint
    · omega
    · omega

end Shortest

/-- The shortest decimal of a magnitude is on the coarsest grid that has any point that reads
back. -/
theorem Magnitude.shortest_eq (tie : Tie) {m : Magnitude} (hcode : 0 < m.code) :
    ∃ n e : Nat, m.shortest tie = ⟨n, e - (Shortest.offset : Int)⟩ ∧
      Shortest.onGrid? tie m.code e = some n ∧
      ∀ coarser j, e < coarser → Shortest.readsBack m.code j coarser = false := by
  obtain ⟨n, e, hsearch, hgrid, hnone⟩ := Shortest.search_eq tie hcode
    (Nat.toDigits 10 (Shortest.scaled m.code)).length
  refine ⟨n, e, ?_, hgrid, fun coarser j hlt => ?_⟩
  · rw [Magnitude.shortest, if_neg (Nat.ne_of_gt hcode), hsearch]
  · rcases Nat.lt_or_ge (Nat.toDigits 10 (Shortest.scaled m.code)).length coarser with h | h
    · exact Shortest.readsBack_eq_false_of_lt hcode h j
    · exact Shortest.readsBack_eq_false_of_onGrid? hcode coarser (hnone coarser hlt h) j

end Phrasebook.Number
