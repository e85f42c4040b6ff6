import Phrasebook.Number.Shortest
import Phrasebook.Proofs.NearestMagnitudes

/-!
# Shortest decimals read back

A decimal reads back as a magnitude if it lies between the middles to the two neighbours of the
magnitude. The search for a shortest decimal goes down to a grid that is finer than the steps of
magnitudes, so it always ends at a decimal that reads back.
-/

namespace Phrasebook.Number

namespace Magnitude

theorem isNearest_of_middles {num den : Nat} {m : Magnitude} (hden : 0 < den)
    (hlow : Grid.steps precision (m.code - 1) * den + m.steps * den ≤ 2 * (num * stepsPerUnit))
    (hhigh : 2 * (num * stepsPerUnit) ≤
      m.steps * den + Grid.steps precision (m.code + 1) * den)
    (heven : m.code % 2 = 0 ∨
      (Grid.steps precision (m.code - 1) * den + m.steps * den < 2 * (num * stepsPerUnit) ∧
        2 * (num * stepsPerUnit) < m.steps * den + Grid.steps precision (m.code + 1) * den)) :
    m.IsNearest num den := by
  have hmono := Grid.strictMono_steps (by decide : 0 < precision)
  -- Another magnitude is at most as near as the neighbour on its side.
  have hside : ∀ other : Magnitude, other ≠ m →
      (other.steps * den < m.steps * den ∧
        other.steps * den ≤ Grid.steps precision (m.code - 1) * den) ∨
      (m.steps * den < other.steps * den ∧
        Grid.steps precision (m.code + 1) * den ≤ other.steps * den) := by
    intro other hother
    rcases Nat.lt_or_gt_of_ne (code_ne_code hother) with hlt | hgt
    · exact Or.inl ⟨steps_mul_lt hden hlt,
        Nat.mul_le_mul_right den (hmono.monotone (Nat.le_sub_one_of_lt hlt))⟩
    · exact Or.inr ⟨steps_mul_lt hden hgt, Nat.mul_le_mul_right den (hmono.monotone hgt)⟩
  constructor
  · intro other
    by_cases hother : other = m
    · rw [hother]
    · have hside := hside other hother
      simp only [distance, Nat.dist]
      omega
  · intro other hother htie
    have hside := hside other hother
    simp only [distance, Nat.dist] at htie
    omega

/-- Correct rounding is about the quotient, not about how it is written. -/
theorem IsNearest.of_mul_eq {num den num' den' : Nat} {m : Magnitude} (h : m.IsNearest num den)
    (hden : 0 < den) (hden' : 0 < den') (hratio : num * den' = num' * den) :
    m.IsNearest num' den' := by
  have hscale : ∀ other : Magnitude,
      other.distance num' den' * den = other.distance num den * den' := by
    intro other
    unfold distance
    generalize stepsPerUnit = unit
    have hnum : num' * unit * den = num * unit * den' := by
      rw [Nat.mul_right_comm, ← hratio, Nat.mul_right_comm]
    rw [← Nat.dist_mul_right, ← Nat.dist_mul_right, hnum, Nat.mul_right_comm other.steps]
  constructor
  · intro other
    have hle := Nat.mul_le_mul_right den' (h.distance_le other)
    rw [← hscale, ← hscale] at hle
    exact Nat.le_of_mul_le_mul_right hle hden
  · intro other hother htie
    apply h.even_of_tie other hother
    have hsame := congrArg (· * den) htie
    simp only [hscale] at hsame
    exact Nat.eq_of_mul_eq_mul_right hden' hsame

end Magnitude

namespace Shortest

theorem pow_offset_pos : 0 < 10 ^ offset := Nat.pow_pos (by decide)

theorem isNearest_of_readsBack {m : Magnitude} {n exponent : Nat}
    (h : readsBack m.code n exponent = true) :
    m.IsNearest (n * 10 ^ exponent) (10 ^ offset) := by
  have hsteps : m.steps = Grid.steps precision m.code := rfl
  unfold readsBack at h
  simp only [Nat.pow_eq, Nat.add_mul, ← hsteps] at h
  rw [Nat.mul_comm _ 2] at h
  apply Magnitude.isNearest_of_middles pow_offset_pos
  all_goals
    split at h
    all_goals
      simp only [Bool.and_eq_true, decide_eq_true_eq] at h
      omega

theorem readsBack_of_onGrid? {tie : Tie} {code exponent n : Nat}
    (h : onGrid? tie code exponent = some n) : readsBack code n exponent = true := by
  dsimp only [onGrid?] at h
  split at h
  · rename_i hlower hupper
    obtain rfl := Option.some.inj h
    split
    · exact hlower
    · exact hupper
  · rename_i hlower _
    obtain rfl := Option.some.inj h
    exact hlower
  · rename_i _ hupper
    obtain rfl := Option.some.inj h
    exact hupper
  · cases h

theorem two_mul_stepsPerUnit_le : 2 * stepsPerUnit ≤ 10 ^ offset := by
  decide +kernel

theorem readsBack_scaled {code : Nat} (hcode : 0 < code) :
    readsBack code (scaled code) 0 = true := by
  have hunit : 0 < stepsPerUnit := by
    unfold stepsPerUnit
    generalize 1074 = digits
    exact Nat.two_pow_pos digits
  -- The value is cut by less than one unit of the grid, and the middles are half a step away, which
  -- is at least one unit.
  have hgrid := two_mul_stepsPerUnit_le
  have hmono := Grid.strictMono_steps (by decide : 0 < precision)
  have hbelow : Grid.steps precision (code - 1) + 1 ≤ Grid.steps precision code :=
    hmono (Nat.sub_lt hcode Nat.one_pos)
  have habove : Grid.steps precision code < Grid.steps precision (code + 1) :=
    hmono (Nat.lt_succ_self code)
  have hbelow := Nat.mul_le_mul_right (10 ^ offset) hbelow
  have habove := Nat.mul_lt_mul_of_pos_right habove pow_offset_pos
  have hfloor := Nat.div_mul_le_self (Grid.steps precision code * 10 ^ offset) stepsPerUnit
  have hceil := Nat.lt_div_mul_add (a := Grid.steps precision code * 10 ^ offset) hunit
  rw [Nat.add_mul, Nat.one_mul] at hbelow
  unfold readsBack scaled
  simp only [Nat.pow_eq, Nat.pow_zero, Nat.mul_one, Nat.add_mul]
  split
  all_goals
    simp only [Bool.and_eq_true, decide_eq_true_eq]
    omega

theorem exists_onGrid?_zero (tie : Tie) {code : Nat} (hcode : 0 < code) :
    ∃ n, onGrid? tie code 0 = some n := by
  have hlower := readsBack_scaled hcode
  simp only [onGrid?, Nat.pow_eq, Nat.pow_zero, Nat.div_one, hlower]
  cases readsBack code (scaled code + 1) 0 with
  | true => exact ⟨_, rfl⟩
  | false => exact ⟨_, rfl⟩

/-- The search ends at the first grid with a decimal that reads back. -/
theorem search_eq (tie : Tie) {code : Nat} (hcode : 0 < code) (exponent : Nat) :
    ∃ n e : Nat, search tie code exponent = ⟨n, e - (offset : Int)⟩ ∧
      onGrid? tie code e = some n ∧
      ∀ coarser, e < coarser → coarser ≤ exponent → onGrid? tie code coarser = none := by
  -- Each grid is finer than the one before it, down to the finest.
  induction exponent with
  | zero =>
      obtain ⟨n, hgrid⟩ := exists_onGrid?_zero tie hcode
      refine ⟨n, 0, by rw [search, hgrid]; simp, hgrid, ?_⟩
      intro coarser hlt hle
      omega
  | succ exponent ih =>
      rw [search]
      cases hgrid : onGrid? tie code (exponent + 1) with
      | some n =>
          refine ⟨n, exponent + 1, rfl, hgrid, ?_⟩
          intro coarser hlt hle
          omega
      | none =>
          obtain ⟨n, e, hsearch, hfound, hnone⟩ := ih
          refine ⟨n, e, hsearch, hfound, ?_⟩
          intro coarser hlt hle
          rcases Nat.lt_or_eq_of_le hle with hle | rfl
          · exact hnone coarser hlt (Nat.le_of_lt_succ hle)
          · exact hgrid

end Shortest

theorem Magnitude.isNearest_shortest (tie : Tie) (m : Magnitude) :
    m.IsNearest ((m.shortest tie).coefficient * 10 ^ (m.shortest tie).exponent.toNat)
      (10 ^ (-(m.shortest tie).exponent).toNat) := by
  unfold Magnitude.shortest
  split
  · rename_i hzero
    have hm : m = zero := by
      cases m
      simp_all [zero]
    rw [hm]
    apply isNearest_zero
    rw [Nat.zero_mul, Nat.zero_mul]
    exact Nat.pow_pos (by decide)
  · rename_i hcode
    obtain ⟨n, e, hsearch, hgrid, -⟩ := Shortest.search_eq tie (Nat.pos_of_ne_zero hcode)
      (Nat.toDigits 10 (Shortest.scaled m.code)).length
    have hreads := Shortest.readsBack_of_onGrid? hgrid
    rw [hsearch]
    apply (Shortest.isNearest_of_readsBack hreads).of_mul_eq Shortest.pow_offset_pos
      (Nat.pow_pos (by decide))
    dsimp only
    rw [Nat.mul_assoc, Nat.mul_assoc, ← Nat.pow_add, ← Nat.pow_add]
    congr 2
    omega

end Phrasebook.Number
