import Phrasebook.Translator

/-!
# Equal numbers select the same variant

The two zeros are one number to every condition and to every plural category. Numbers that compare
as equal therefore get the same text, and the strategy is asked the same questions about them.
-/

namespace Phrasebook

namespace Number.Binary64

/-- Equal numbers have one magnitude, and one sign unless they are zero. -/
theorem equals_iff {x y : Binary64} :
    x.equals y = true ↔ ∃ negative negative' m, x = .signed negative m ∧
      y = .signed negative' m ∧ (negative = negative' ∨ m = .zero) := by
  constructor
  · intro h
    cases x with
    | nan => cases h
    | signed negative m =>
        cases y with
        | nan => cases h
        | signed negative' m' =>
            obtain ⟨code, hle⟩ := m
            obtain ⟨code', hle'⟩ := m'
            have hposition : (if negative then -(code : Int) else code) =
                if negative' then -(code' : Int) else code' := by simpa using beq_iff_eq.mp h
            have hcode : code = code' ∧ (negative = negative' ∨ code = 0) := by
              cases negative <;> cases negative' <;> simp at hposition ⊢ <;> omega
            obtain ⟨rfl, hsign⟩ := hcode
            exact ⟨negative, negative', ⟨code, hle⟩, rfl, rfl,
              hsign.imp_right fun hzero => by subst hzero; rfl⟩
  · rintro ⟨negative, negative', m, rfl, rfl, rfl | rfl⟩
    · simp [equals, compare, position]
    · cases negative <;> cases negative' <;> rfl

theorem position_eq_of_equals {x y : Binary64} (h : x.equals y = true) :
    x.position = y.position := by
  obtain ⟨negative, negative', m, rfl, rfl, rfl | rfl⟩ := equals_iff.mp h
  · rfl
  · cases negative <;> cases negative' <;> rfl

theorem truncate_zero (negative : Bool) : (signed negative .zero).truncate = 0 := by
  cases negative <;> decide +kernel

theorem truncate_eq_of_equals {x y : Binary64} (h : x.equals y = true) :
    x.truncate = y.truncate := by
  obtain ⟨negative, negative', m, rfl, rfl, rfl | rfl⟩ := equals_iff.mp h
  · rfl
  · rw [truncate_zero, truncate_zero]

section Comparisons

variable {x y : Binary64} (h : x.position = y.position) (r : Int → Int → Bool) (z : Binary64)

include h

theorem compare_left_congr : x.compare r z = y.compare r z := by
  rw [compare, compare, h]

theorem compare_right_congr : z.compare r x = z.compare r y := by
  rw [compare, compare, h]

end Comparisons

end Number.Binary64

open Number

/-- Both counts are missing, or they are equal numbers. -/
def SameCount : Option Binary64 → Option Binary64 → Prop :=
  Option.Rel fun x y => x.equals y = true

variable {x y : Binary64} (h : x.equals y = true)

include h

theorem Condition.holds_eq_of_equals (c : Condition) : c.holds x = c.holds y := by
  have hposition := Binary64.position_eq_of_equals h
  cases c with
  | values numbers =>
      simp only [holds, Binary64.equals, Binary64.compare_right_congr hposition]
  | interval range =>
      simp only [holds, Interval.contains, Binary64.less, Binary64.lessOrEqual,
        Binary64.compare_left_congr hposition, Binary64.compare_right_congr hposition]

theorem Variants.find_eq_of_equals (locale : String) (strategy : Strategy)
    (variants : List Variant) :
    ∀ known asked, find x locale strategy known asked variants =
      find y locale strategy known asked variants := by
  induction variants with
  | nil => exact fun _ _ => rfl
  | cons v variants ih =>
      intro known asked
      rw [find, find]
      simp only [Condition.holds_eq_of_equals h, Binary64.truncate_eq_of_equals h, ih]

omit h

theorem Messages.get_eq_of_sameCount (m : Messages) (key locale : String) (strategy : Strategy)
    {count other : Option Binary64} (h : SameCount count other) :
    m.get key count locale strategy = m.get key other locale strategy := by
  cases h with
  | none => rfl
  | some h =>
      unfold get
      cases m.variants? key with
      | none => rfl
      | some variants =>
          simp only [Variants.select, Variants.find_eq_of_equals h locale strategy]

theorem Lookup.ofLoader_eq_of_sameCount {σ : Type} (loader : Loader σ) (strategy : Strategy)
    (key domain locale : String) {count other : Option Binary64} (h : SameCount count other)
    (state : Snapshots × σ) :
    Lookup.ofLoader loader strategy key domain locale count state =
      Lookup.ofLoader loader strategy key domain locale other state := by
  simp only [Lookup.ofLoader, Snapshots.get, Messages.get_eq_of_sameCount _ key locale strategy h]

end Phrasebook
