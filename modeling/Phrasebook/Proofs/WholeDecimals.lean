import Mathlib.Data.Nat.Factorization.Basic
import Phrasebook.Argument
import Phrasebook.Proofs.PlainNumerals
import Phrasebook.Proofs.ShortestSearch

/-!
# Shortest decimals of whole numbers

A whole magnitude is written as the whole number with the most zeros at its end among those that are
rounded to it. Whole numbers with fifteen digits in front of their zeros are far enough apart for
each of them to be written as itself.
-/

namespace Phrasebook.Number

/-! ## The error of rounding -/

theorem two_mul_dist_nearestMultiple_le (n : Nat) {step : Nat} (hstep : 0 < step) :
    2 * Nat.dist n (nearestMultiple step n) ≤ step := by
  have hsplit : n / step * step + n % step = n := Nat.div_add_mod' n step
  have hmod : n % step < step := Nat.mod_lt _ hstep
  have hsucc : (n / step + 1) * step = n / step * step + step := Nat.succ_mul _ _
  unfold nearestMultiple nearestQuotient Nat.dist
  split
  · omega
  · split
    · omega
    · split <;> omega

theorem Grid.spacing_mul_le {p n : Nat} (hp : 0 < p) (hn : n ≠ 0) (hlog : p ≤ n.log2 + 1) :
    spacing p n * 2 ^ (p - 1) ≤ n := by
  rw [spacing, ← Nat.pow_add, show n.log2 + 1 - p + (p - 1) = n.log2 by omega]
  exact Nat.log2_self_le hn

namespace Magnitude

theorem eq_zero_of_isNearest {m : Magnitude} (h : m.IsNearest 0 1) : m = zero :=
  h.unique Nat.one_pos (isNearest_zero (by rw [Nat.zero_mul]; decide))

theorem steps_of_isNearest {n : Nat} {m : Magnitude} (h : m.IsNearest n 1)
    (hfinite : m ≠ infinity) :
    m.steps = nearestMultiple (Grid.spacing precision (n * stepsPerUnit)) (n * stepsPerUnit) := by
  obtain rfl := h.unique Nat.one_pos (isNearest_ofRatio n Nat.one_pos)
  have hcode : (ofRatio n 1).code =
    min (Grid.nearest precision (n * stepsPerUnit) 1) infinityCode := rfl
  have hlast := code_le_of_ne_infinity hfinite
  have hinfinity : 0 < infinityCode := by decide
  have hnearest : (ofRatio n 1).code = Grid.nearest precision (n * stepsPerUnit) 1 := by omega
  rw [steps, hnearest, Grid.steps_nearest (by decide)]

theorem exists_whole_of_isNearest {n : Nat} {m : Magnitude} (h : m.IsNearest n 1)
    (hfinite : m ≠ infinity) : ∃ whole, m.steps = whole * stepsPerUnit := by
  refine ⟨nearestMultiple (Grid.spacing precision n) n, ?_⟩
  rw [steps_of_isNearest h hfinite]
  unfold stepsPerUnit
  generalize 1074 = e
  exact Grid.nearestMultiple_spacing_mul precision n e

theorem two_pow_mul_distance_le {n : Nat} {m : Magnitude} (h : m.IsNearest n 1)
    (hfinite : m ≠ infinity) : 2 ^ precision * m.distance n 1 ≤ n * stepsPerUnit := by
  have hunit := stepsPerUnit_pos
  have herror := two_mul_dist_nearestMultiple_le (n * stepsPerUnit)
    (Grid.spacing_pos precision (n * stepsPerUnit))
  rw [← steps_of_isNearest h hfinite, ← Nat.mul_one m.steps] at herror
  change 2 * m.distance n 1 ≤ _ at herror
  rcases Nat.eq_zero_or_pos n with rfl | hpos
  · obtain rfl := eq_zero_of_isNearest h
    decide +kernel
  · have hlog : precision ≤ (n * stepsPerUnit).log2 + 1 := by
      unfold stepsPerUnit
      have hprecision : precision ≤ 1074 := by decide
      generalize 1074 = e at hprecision
      rw [Nat.pow_eq, Grid.log2_mul_two_pow (Nat.ne_of_gt hpos)]
      omega
    have hspacing := Grid.spacing_mul_le (by decide : 0 < precision)
      (Nat.mul_ne_zero (Nat.ne_of_gt hpos) (Nat.ne_of_gt hunit)) hlog
    calc 2 ^ precision * m.distance n 1 = 2 ^ (precision - 1) * (2 * m.distance n 1) := by
          rw [← Nat.mul_assoc, Nat.two_pow_pred_mul_two (by decide)]
      _ ≤ 2 ^ (precision - 1) * Grid.spacing precision (n * stepsPerUnit) :=
          Nat.mul_le_mul_left _ herror
      _ ≤ n * stepsPerUnit := by rwa [Nat.mul_comm]

theorem code_pos_of_isNearest {n : Nat} {m : Magnitude} (hn : 0 < n) (h : m.IsNearest n 1)
    (hfinite : m ≠ infinity) : 0 < m.code := by
  have hunit := Nat.mul_pos hn stepsPerUnit_pos
  have herror := two_pow_mul_distance_le h hfinite
  have hprecision : precision = 53 := rfl
  by_contra hzero
  have hsteps : m.steps = 0 := by
    rw [steps, show m.code = 0 by omega, Grid.steps_zero]
  simp only [distance, Nat.dist, hsteps, hprecision] at herror
  omega

/-! ## Shortest whole numbers -/

/-- A whole number is the shortest one for a magnitude: it ends in some zeros and is rounded to the
magnitude; no number with one more zero is, and of those with as many zeros it is the nearest, or
the greater one of two that are equally near. -/
structure IsShortest (m : Magnitude) (zeros k : Nat) : Prop where
  dvd : 10 ^ zeros ∣ k
  nearest : m.IsNearest k 1
  coarsest : ∀ j, 10 ^ (zeros + 1) ∣ j → ¬ m.IsNearest j 1
  closest : ∀ j, 10 ^ zeros ∣ j → m.IsNearest j 1 → j ≠ k →
    m.distance k 1 < m.distance j 1 ∨ (m.distance j 1 = m.distance k 1 ∧ j < k)

theorem IsShortest.unique {m : Magnitude} {zeros zeros' k k' : Nat} (h : m.IsShortest zeros k)
    (h' : m.IsShortest zeros' k') : k = k' := by
  have hle : ∀ {zeros zeros' k k' : Nat}, m.IsShortest zeros k → m.IsShortest zeros' k' →
      zeros ≤ zeros' := by
    intro zeros zeros' k k' h h'
    by_contra hlt
    exact h'.coarsest k ((Nat.pow_dvd_pow 10 (by omega)).trans h.dvd) h.nearest
  obtain rfl : zeros = zeros' := Nat.le_antisymm (hle h h') (hle h' h)
  by_contra hne
  have hcloser := h.closest k' h'.dvd h'.nearest (Ne.symm hne)
  have hcloser' := h'.closest k h.dvd h.nearest hne
  omega

theorem isNearest_whole {m : Magnitude} {whole : Nat} (hwhole : m.steps = whole * stepsPerUnit) :
    m.IsNearest whole 1 := by
  have hmono := Grid.strictMono_steps (by decide : 0 < precision)
  apply isNearest_of_distance_lt
  intro other hother
  have hsteps : other.steps ≠ m.steps := fun heq => code_ne_code hother (hmono.injective heq)
  simp only [distance, Nat.dist, Nat.mul_one, ← hwhole]
  omega

/-! ## The search on whole numbers -/

section Search

variable {m : Magnitude} (hcode : 0 < m.code) (hfinite : m ≠ infinity)

include hcode hfinite

theorem readsBack_offset_add_iff (j zeros : Nat) :
    Shortest.readsBack m.code j (Shortest.offset + zeros) = true ↔
      m.IsNearest (j * 10 ^ zeros) 1 := by
  have hratio : j * 10 ^ (Shortest.offset + zeros) * 1 =
      j * 10 ^ zeros * 10 ^ Shortest.offset := by
    rw [Nat.mul_one, Nat.pow_add, Nat.mul_assoc, Nat.mul_comm (10 ^ zeros)]
  rw [Shortest.readsBack_iff_isNearest hcode hfinite]
  exact ⟨fun h => h.of_mul_eq Shortest.pow_offset_pos Nat.one_pos hratio,
    fun h => h.of_mul_eq Nat.one_pos Shortest.pow_offset_pos hratio.symm⟩

omit hcode hfinite in
theorem dist_offset_add (j zeros : Nat) :
    Nat.dist (j * (10 ^ (Shortest.offset + zeros) * stepsPerUnit))
        (Grid.steps precision m.code * 10 ^ Shortest.offset) =
      m.distance (j * 10 ^ zeros) 1 * 10 ^ Shortest.offset := by
  have hpoint : j * (10 ^ (Shortest.offset + zeros) * stepsPerUnit) =
      j * 10 ^ zeros * stepsPerUnit * 10 ^ Shortest.offset := by
    rw [Nat.pow_add]
    ring
  rw [hpoint, Nat.dist_mul_right, distance, steps, Nat.mul_one]

/-- For a whole magnitude the search ends on a grid of whole numbers, the coarsest one with a number
that is rounded to it. -/
theorem shortest_eq_whole {whole : Nat} (hwhole : m.steps = whole * stepsPerUnit) :
    ∃ n zeros : Nat, m.shortest .up = ⟨n, zeros⟩ ∧
      Shortest.onGrid? .up m.code (Shortest.offset + zeros) = some n ∧
      ∀ j more, zeros < more → ¬ m.IsNearest (j * 10 ^ more) 1 := by
  obtain ⟨n, e, hshortest, hgrid, hcoarser⟩ := shortest_eq .up hcode
  have hreads := readsBack_offset_add_iff hcode hfinite
  have hself : m.IsNearest (whole * 10 ^ 0) 1 := by
    rw [Nat.pow_zero, Nat.mul_one]
    exact isNearest_whole hwhole
  obtain ⟨zeros, rfl⟩ : ∃ zeros, e = Shortest.offset + zeros := by
    apply Nat.exists_eq_add_of_le
    by_contra hlt
    have hread := (hreads whole 0).mpr hself
    rw [hcoarser _ _ (by omega)] at hread
    cases hread
  refine ⟨n, zeros, ?_, hgrid, fun j more hmore hnearest => ?_⟩
  · rw [hshortest, Nat.cast_add, add_sub_cancel_left]
  · have hread := (hreads j more).mpr hnearest
    rw [hcoarser _ _ (by omega)] at hread
    cases hread

theorem isShortest_shortest {whole : Nat} (hwhole : m.steps = whole * stepsPerUnit) :
    ∃ n zeros : Nat, m.shortest .up = ⟨n, zeros⟩ ∧ 0 < n ∧
      m.IsShortest zeros (n * 10 ^ zeros) := by
  obtain ⟨n, zeros, hshortest, hgrid, hcoarser⟩ := shortest_eq_whole hcode hfinite hwhole
  have hreads := readsBack_offset_add_iff hcode hfinite
  have hnearest := (hreads n zeros).mp (Shortest.readsBack_of_onGrid? hgrid)
  have hpos : 0 < n := by
    by_contra hnot
    rw [show n = 0 by omega, Nat.zero_mul] at hnearest
    rw [eq_zero_of_isNearest hnearest] at hcode
    cases hcode
  refine ⟨n, zeros, hshortest, hpos, Nat.dvd_mul_left _ _, hnearest, ?_, ?_⟩
  · rintro _ ⟨i, rfl⟩ hnearer
    rw [Nat.mul_comm (10 ^ (zeros + 1))] at hnearer
    exact hcoarser i (zeros + 1) (Nat.lt_succ_self zeros) hnearer
  · rintro _ ⟨i, rfl⟩ hother hne
    rw [Nat.mul_comm (10 ^ zeros)] at hother hne ⊢
    have hcloser := Shortest.dist_lt_of_onGrid? hcode _ hgrid ((hreads i zeros).mpr hother)
      fun heq => hne (by rw [heq])
    simp only [dist_offset_add] at hcloser
    rcases hcloser with hlt | ⟨heq, hlt⟩
    · exact Or.inl (Nat.lt_of_mul_lt_mul_right hlt)
    · exact Or.inr ⟨Nat.eq_of_mul_eq_mul_right Shortest.pow_offset_pos heq,
        Nat.mul_lt_mul_of_pos_right hlt (Nat.pow_pos (by decide))⟩

end Search

/-! ## Fifteen digits -/

/-- No two numbers with fifteen digits in front of some zeros are rounded to one magnitude. -/
theorem eq_of_isNearest {m : Magnitude} {c i zeros : Nat} (hc : c < 10 ^ 15)
    (hfinite : m ≠ infinity) (h : m.IsNearest (c * 10 ^ zeros) 1)
    (hi : m.IsNearest (i * 10 ^ zeros) 1) : i = c := by
  have hunit := stepsPerUnit_pos
  have hscale : 0 < 10 ^ zeros * stepsPerUnit := Nat.mul_pos (Nat.pow_pos (by decide)) hunit
  have hfirst := two_pow_mul_distance_le h hfinite
  have hsecond := two_pow_mul_distance_le hi hfinite
  have htriangle := Nat.dist.triangle_inequality (c * 10 ^ zeros * stepsPerUnit) (m.steps * 1)
    (i * 10 ^ zeros * stepsPerUnit)
  rw [Nat.dist_comm (m.steps * 1)] at htriangle
  change _ ≤ m.distance (c * 10 ^ zeros) 1 + m.distance (i * 10 ^ zeros) 1 at htriangle
  rw [Nat.mul_assoc, Nat.mul_assoc, Nat.dist_mul_right] at htriangle
  rw [Nat.mul_assoc] at hfirst hsecond
  -- The two numbers are less than one of their units apart.
  have hclose : 2 ^ precision * Nat.dist c i ≤ c + i := by
    apply Nat.le_of_mul_le_mul_right _ hscale
    calc 2 ^ precision * Nat.dist c i * (10 ^ zeros * stepsPerUnit)
        = 2 ^ precision * (Nat.dist c i * (10 ^ zeros * stepsPerUnit)) := Nat.mul_assoc _ _ _
      _ ≤ 2 ^ precision * (m.distance (c * 10 ^ zeros) 1 + m.distance (i * 10 ^ zeros) 1) :=
          Nat.mul_le_mul_left _ htriangle
      _ ≤ c * (10 ^ zeros * stepsPerUnit) + i * (10 ^ zeros * stepsPerUnit) := by
          rw [Nat.mul_add]
          exact Nat.add_le_add hfirst hsecond
      _ = (c + i) * (10 ^ zeros * stepsPerUnit) := (Nat.add_mul _ _ _).symm
  have hprecision : precision = 53 := rfl
  rw [hprecision] at hclose
  unfold Nat.dist at hclose
  omega

theorem isShortest_of_lt {m : Magnitude} {c zeros : Nat} (hpos : 0 < c) (hc : c < 10 ^ 15)
    (hfinite : m ≠ infinity) (h : m.IsNearest (c * 10 ^ zeros) 1) :
    ∃ more, m.IsShortest more (c * 10 ^ zeros) := by
  obtain ⟨e, last, hlast, rfl⟩ :=
    Nat.exists_eq_pow_mul_and_not_dvd (Nat.ne_of_gt hpos) 10 (by decide)
  refine ⟨e + zeros, ⟨last, by rw [Nat.pow_add]; ring⟩, h, ?_, ?_⟩
  · rintro _ ⟨t, rfl⟩ hnearest
    have heq : 10 ^ (e + zeros + 1) * t = 10 ^ (e + 1) * t * 10 ^ zeros := by
      rw [Nat.add_right_comm, Nat.pow_add _ (e + 1)]
      ring
    rw [heq] at hnearest
    have hsame := eq_of_isNearest hc hfinite h hnearest
    rw [Nat.pow_succ, Nat.mul_assoc] at hsame
    exact hlast ⟨t, (Nat.eq_of_mul_eq_mul_left (Nat.pow_pos (by decide)) hsame).symm⟩
  · rintro _ ⟨t, rfl⟩ hnearest hne
    have heq : 10 ^ (e + zeros) * t = 10 ^ e * t * 10 ^ zeros := by
      rw [Nat.pow_add]
      ring
    rw [heq] at hnearest hne
    exact absurd (by rw [eq_of_isNearest hc hfinite h hnearest]) hne

end Magnitude

/-! ## Texts of whole numbers -/

theorem toDigits_mul_pow_ten {n : Nat} (hn : 0 < n) (zeros : Nat) :
    Nat.toDigits 10 (n * 10 ^ zeros) = Nat.toDigits 10 n ++ List.replicate zeros '0' := by
  induction zeros with
  | zero => rw [Nat.pow_zero, Nat.mul_one, List.replicate_zero, List.append_nil]
  | succ zeros ih =>
      have hpos : 0 < n * 10 ^ zeros := Nat.mul_pos hn (Nat.pow_pos (by decide))
      calc Nat.toDigits 10 (n * 10 ^ (zeros + 1))
          = Nat.toDigits 10 (10 * (n * 10 ^ zeros) + 0) := by
            rw [Nat.pow_succ, ← Nat.mul_assoc, Nat.mul_comm _ 10, Nat.add_zero]
        _ = Nat.toDigits 10 (n * 10 ^ zeros) ++ ['0'] := by
            rw [← Nat.toDigits_append_toDigits (by decide) hpos (by decide), Nat.toDigits_zero]
        _ = Nat.toDigits 10 n ++ List.replicate (zeros + 1) '0' := by
            rw [ih, List.append_assoc, ← List.replicate_succ']

theorem Layout.render_whole {layout : Layout} (htie : layout.tie = .up)
    (hpositional : ∀ leading, layout.positional leading = true)
    (hpoint : layout.keepsPoint = false) {m : Magnitude} (hcode : 0 < m.code)
    (hfinite : m ≠ .infinity) {whole : Nat} (hwhole : m.steps = whole * stepsPerUnit) :
    ∃ zeros k : Nat, m.IsShortest zeros k ∧ ∀ negative,
      layout.render (.signed negative m) = (if negative then "-" else "") ++ toString k := by
  obtain ⟨n, zeros, hshortest, hpos, hk⟩ := Magnitude.isShortest_shortest hcode hfinite hwhole
  have hinfinite : m.isInfinite = false := by
    rw [Bool.eq_false_iff]
    exact fun h => hfinite (m.isInfinite_iff.mp h)
  refine ⟨zeros, n * 10 ^ zeros, hk, fun negative => ?_⟩
  have htext : layout.magnitude m = toString (n * 10 ^ zeros) := by
    rw [← String.toList_inj, magnitude, htie, hshortest]
    simp only [hpositional, Bool.or_true, if_true, positionalText, hpoint, Layout.zeros]
    rw [if_pos (Int.natCast_nonneg zeros), Int.toNat_natCast]
    simp [Nat.toList_repr, toDigits_mul_pow_ten hpos]
  rw [render, hinfinite, htext]
  rfl

end Phrasebook.Number
