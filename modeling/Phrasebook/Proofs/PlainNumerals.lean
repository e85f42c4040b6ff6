import Phrasebook.Proofs.ConditionGrammar
import Phrasebook.Proofs.ShortestDecimals

/-!
# Plain numbers are numerals

The plain text of a finite number is a numeral of the grammar of conditions, without an exponent,
and the number is the correctly rounded value of that numeral.
-/

namespace Phrasebook

namespace Number

/-! ## Zeros around digits -/

theorem ofDecimalDigits_toDigits (n : Nat) : ofDecimalDigits (Nat.toDigits 10 n) = n :=
  Nat.ofDigitChars_ten_toDigits

theorem ofDecimalDigits_zeros_append (count : Nat) (digits : List Char) :
    ofDecimalDigits (List.replicate count '0' ++ digits) = ofDecimalDigits digits := by
  show Nat.ofDigitChars 10 _ 0 = Nat.ofDigitChars 10 _ 0
  rw [Nat.ofDigitChars_append, Nat.ofDigitChars_replicate_zero, Nat.mul_zero]

theorem ofDecimalDigits_append_zeros (digits : List Char) (count : Nat) :
    ofDecimalDigits (digits ++ List.replicate count '0') =
      ofDecimalDigits digits * 10 ^ count := by
  show Nat.ofDigitChars 10 _ 0 = Nat.ofDigitChars 10 _ 0 * _
  rw [Nat.ofDigitChars_append, Nat.ofDigitChars_replicate_zero, Nat.mul_comm]

theorem isDigit_of_mem_zeros {count : Nat} {c : Char} (h : c ∈ List.replicate count '0') :
    c.isDigit = true := by
  rw [(List.mem_replicate.mp h).2]
  rfl

/-! ## Digits on both sides of a point -/

namespace Layout

def wholeDigits (digits : List Char) (exponent : Int) : List Char :=
  if 0 ≤ exponent then digits ++ List.replicate exponent.toNat '0'
  else if 0 < digits.length + exponent then digits.take (digits.length + exponent).toNat
  else ['0']

def fractionDigits (digits : List Char) (exponent : Int) : List Char :=
  if 0 ≤ exponent then []
  else if 0 < digits.length + exponent then digits.drop (digits.length + exponent).toNat
  else List.replicate (-(digits.length + exponent)).toNat '0' ++ digits

variable {digits : List Char} (exponent : Int)

theorem wholeDigits_ne_nil (hne : digits ≠ []) : wholeDigits digits exponent ≠ [] := by
  unfold wholeDigits
  split
  · simp [hne]
  · split
    · simp only [ne_eq, List.take_eq_nil_iff, hne, or_false]
      omega
    · simp

theorem isDigit_wholeDigits (h : ∀ c ∈ digits, c.isDigit = true) :
    ∀ c ∈ wholeDigits digits exponent, c.isDigit = true := by
  intro c hc
  unfold wholeDigits at hc
  split at hc
  · rcases List.mem_append.mp hc with hc | hc
    · exact h c hc
    · exact isDigit_of_mem_zeros hc
  · split at hc
    · exact h c (List.mem_of_mem_take hc)
    · rw [List.mem_singleton.mp hc]
      rfl

theorem isDigit_fractionDigits (h : ∀ c ∈ digits, c.isDigit = true) :
    ∀ c ∈ fractionDigits digits exponent, c.isDigit = true := by
  intro c hc
  unfold fractionDigits at hc
  split at hc
  · cases hc
  · split at hc
    · exact h c (List.mem_of_mem_drop hc)
    · rcases List.mem_append.mp hc with hc | hc
      · exact isDigit_of_mem_zeros hc
      · exact h c hc

theorem length_fractionDigits (digits : List Char) :
    (fractionDigits digits exponent).length = (-exponent).toNat := by
  unfold fractionDigits
  split
  · rw [List.length_nil]
    omega
  · split
    · rw [List.length_drop]
      omega
    · rw [List.length_append, List.length_replicate]
      omega

theorem ofDecimalDigits_wholeDigits_append (digits : List Char) :
    ofDecimalDigits (wholeDigits digits exponent ++ fractionDigits digits exponent) =
      ofDecimalDigits digits * 10 ^ exponent.toNat := by
  unfold wholeDigits fractionDigits
  split
  · rw [List.append_nil, ofDecimalDigits_append_zeros]
  · have hexponent : exponent.toNat = 0 := by omega
    rw [hexponent, Nat.pow_zero, Nat.mul_one]
    split
    · rw [List.take_append_drop]
    · rw [← List.append_assoc, ← List.replicate_one, List.replicate_append_replicate,
        ofDecimalDigits_zeros_append]

theorem toList_positionalText (hne : digits ≠ []) :
    (plainLayout.positionalText digits exponent).toList =
      wholeDigits digits exponent ++ (if fractionDigits digits exponent = [] then []
        else '.' :: fractionDigits digits exponent) := by
  unfold positionalText wholeDigits fractionDigits
  dsimp only
  split
  · simp [zeros, plainLayout]
  · split
    · have hdrop : digits.drop (digits.length + exponent).toNat ≠ [] := by
        simp only [ne_eq, List.drop_eq_nil_iff]
        omega
      simp [hdrop]
    · simp [zeros, hne]

end Layout

end Number

namespace Condition

open Number

def Numeral.ofDigits (negative : Bool) (digits : List Char) (exponent : Int)
    (hne : digits ≠ []) (hdigits : ∀ c ∈ digits, c.isDigit = true) : Numeral where
  negative
  whole := Layout.wholeDigits digits exponent
  fraction := Layout.fractionDigits digits exponent
  whole_ne_nil := Layout.wholeDigits_ne_nil exponent hne
  isDigit_whole := Layout.isDigit_wholeDigits exponent hdigits
  isDigit_fraction := Layout.isDigit_fractionDigits exponent hdigits

/-- A finite number is printed as a numeral that denotes it. -/
theorem exists_numeral_plain {x : Binary64} (hx : x.isFinite = true) :
    ∃ n : Numeral, n.text = x.plain.toList ∧ n.Denotes x := by
  cases x with
  | nan => cases hx
  | signed negative m =>
      have hfinite : m.isInfinite = false := by simpa [Binary64.isFinite] using hx
      have hne : Nat.toDigits 10 (m.shortest plainLayout.tie).coefficient ≠ [] :=
        Nat.toDigits_ne_nil
      refine ⟨.ofDigits negative _ (m.shortest plainLayout.tie).exponent hne
        fun c => Nat.isDigit_of_mem_toDigits (by decide) (by decide), ?_, m, rfl, ?_⟩
      · have hpositional : ∀ leading, plainLayout.positional leading = true := fun _ => rfl
        rw [Binary64.plain, Layout.render, hfinite]
        simp only [Layout.magnitude, hpositional, Bool.or_true, if_true, Bool.false_eq_true,
          if_false, String.toList_append, Layout.toList_positionalText _ hne]
        cases negative <;> rfl
      · -- The point and the zeros leave the shortest decimal as it is, and that one reads back.
        simp only [Numeral.ofDigits]
        rw [Layout.ofDecimalDigits_wholeDigits_append, Layout.length_fractionDigits,
          ofDecimalDigits_toDigits]
        exact m.isNearest_shortest _

end Condition

end Phrasebook
