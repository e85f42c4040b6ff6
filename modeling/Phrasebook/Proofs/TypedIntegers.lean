import Phrasebook.Proofs.LastArguments
import Phrasebook.Proofs.TypedParameters
import Phrasebook.Proofs.WholeDecimals

/-!
# Integers on a command line

The decimal text of an integer is kept exactly as long as the integer has 64 bits. A longer one
becomes the number nearest to it, whose text is the shortest whole number that is rounded to it.
-/

namespace Phrasebook

open Number

namespace Number

/-! ## Decimal texts of integers -/

def IsNatDecimal (digits : List Char) : Prop :=
  digits ≠ [] ∧ (∀ c ∈ digits, c.isDigit = true) ∧ (digits.head? = some '0' → digits = ['0'])

/-- The digits of a natural number, or a minus and the digits of another one than zero. -/
def IsIntDecimal (text : List Char) : Prop :=
  IsNatDecimal text ∨ ∃ digits, text = '-' :: digits ∧ IsNatDecimal digits ∧ digits ≠ ['0']

theorem digitValue_of_isDigit {c : Char} (h : c.isDigit = true) :
    digitValue c < 10 ∧ c.toNat = 48 + digitValue c := by
  have hrange : 48 ≤ c.toNat ∧ c.toNat ≤ 57 := Char.isDigit_iff_toNat.mp h
  have hzero : '0'.toNat = 48 := rfl
  rw [digitValue, hzero]
  omega

theorem toDigits_digitValue {c : Char} (h : c.isDigit = true) :
    Nat.toDigits 10 (digitValue c) = [c] := by
  obtain ⟨hlt, hcode⟩ := digitValue_of_isDigit h
  rw [Nat.toDigits_of_lt_base hlt, List.cons.injEq, ← Char.toNat_inj,
    Nat.toNat_digitChar_of_lt_ten hlt, hcode]
  exact ⟨rfl, rfl⟩

theorem toDigits_append {n : Nat} (hn : 0 < n) {digits : List Char}
    (hdigits : ∀ c ∈ digits, c.isDigit = true) :
    Nat.toDigits 10 n ++ digits =
      Nat.toDigits 10 (digits.foldl (fun n c => 10 * n + digitValue c) n) := by
  induction digits generalizing n with
  | nil => rw [List.append_nil, List.foldl_nil]
  | cons c digits ih =>
      have hc : c.isDigit = true := hdigits c List.mem_cons_self
      obtain ⟨hlt, -⟩ := digitValue_of_isDigit hc
      rw [List.foldl_cons, ← ih (by omega) fun d hd => hdigits d (List.mem_cons_of_mem c hd),
        ← Nat.toDigits_append_toDigits (by decide) hn hlt, toDigits_digitValue hc,
        List.append_assoc, List.singleton_append]

theorem IsNatDecimal.toDigits_ofDecimalDigits {digits : List Char} (h : IsNatDecimal digits) :
    Nat.toDigits 10 (ofDecimalDigits digits) = digits := by
  obtain ⟨hne, hdigits, hzero⟩ := h
  cases digits with
  | nil => exact absurd rfl hne
  | cons c digits =>
      have hc : c.isDigit = true := hdigits c List.mem_cons_self
      by_cases hfirst : c = '0'
      · obtain rfl : digits = [] := by simpa [hfirst] using hzero
        subst hfirst
        exact Nat.toDigits_zero 10
      · have hpos : 0 < digitValue c := by
          by_contra hnot
          obtain ⟨-, hcode⟩ := digitValue_of_isDigit hc
          exact hfirst (Char.toNat_inj.mp (by rw [hcode, show digitValue c = 0 by omega]; rfl))
        have happend := toDigits_append hpos fun d hd => hdigits d (List.mem_cons_of_mem c hd)
        rw [toDigits_digitValue hc] at happend
        rw [ofDecimalDigits, ofDigits, List.foldl_cons, Nat.mul_zero, Nat.zero_add, ← happend,
          List.singleton_append]

theorem toString_int (n : Int) :
    toString n = (if n < 0 then "-" else "") ++ toString n.natAbs := by
  rw [Int.toString_eq_repr, Int.repr_eq_if]
  by_cases hneg : n < 0
  · have habs : (-n).toNat = n.natAbs := by omega
    rw [if_neg (by omega), if_pos hneg, habs]
    rfl
  · have habs : n.toNat = n.natAbs := by omega
    rw [if_pos (by omega), if_neg hneg, habs, String.empty_append]
    rfl

theorem IsIntDecimal.exists_toString {v : String} (h : IsIntDecimal v.toList) :
    ∃ n : Int, v = toString n := by
  rcases h with hdigits | ⟨digits, hv, hdigits, hzero⟩
  · refine ⟨ofDecimalDigits v.toList, ?_⟩
    rw [← String.toList_inj, toString_int, if_neg (by omega), String.empty_append,
      Int.natAbs_natCast]
    exact (Nat.toList_repr.trans hdigits.toDigits_ofDecimalDigits).symm
  · refine ⟨-(ofDecimalDigits digits : Int), ?_⟩
    have htext := hdigits.toDigits_ofDecimalDigits
    have hpos : 0 < ofDecimalDigits digits := by
      by_contra hnot
      rw [show ofDecimalDigits digits = 0 by omega, Nat.toDigits_zero] at htext
      exact hzero htext.symm
    rw [← String.toList_inj, toString_int, if_pos (by omega), Int.natAbs_neg, Int.natAbs_natCast,
      String.toList_append, hv]
    exact congrArg ('-' :: ·) (Nat.toList_repr.trans htext).symm

theorem readInt_toString (n : Int) : readInt (toString n).toList = some n := by
  have hempty : (Nat.toDigits 10 n.natAbs).isEmpty = false :=
    List.isEmpty_eq_false_iff.mpr Nat.toDigits_ne_nil
  have hdigits : (Nat.toDigits 10 n.natAbs).all Char.isDigit = true :=
    List.all_eq_true.mpr isDigit_of_mem_decimal
  rw [readInt, takeSign_toString]
  simp only [hempty, hdigits, ofDecimalDigits_toDigits, Bool.not_true, Bool.or_false,
    Bool.false_eq_true, if_false, decide_eq_true_eq, Option.some.injEq]
  omega

theorem sign_append_eq_toString_iff {n : Int} {k : Nat} :
    (if n < 0 then "-" else "") ++ toString k = toString n ↔ k = n.natAbs := by
  rw [toString_int, String.append_right_inj]
  exact ⟨eq_of_toString_eq, congrArg toString⟩

end Number

namespace Argument

variable {n : Int} (hn : n ≠ 0)

include hn

/-- The number nearest to an integer is written as the shortest whole number that is rounded to it,
or with the word for infinity. -/
theorem render_float_ofInt :
    ∃ m : Magnitude, Binary64.ofInt n = .signed (decide (n < 0)) m ∧ m.IsNearest n.natAbs 1 ∧
      (overflow ≤ n.natAbs →
        (float (.ofInt n)).render = (if n < 0 then "-" else "") ++ "INF") ∧
      (n.natAbs < overflow → ∃ zeros k : Nat, m.IsShortest zeros k ∧
        (float (.ofInt n)).render = (if n < 0 then "-" else "") ++ toString k) := by
  have hnearest := Magnitude.isNearest_ofRatio n.natAbs Nat.one_pos
  have hinfinity := hnearest.eq_infinity_iff Nat.one_pos
  rw [Nat.mul_one] at hinfinity
  refine ⟨.ofRatio n.natAbs 1, rfl, hnearest, ?_, ?_⟩
  · intro hle
    rw [render, Binary64.ofInt, hinfinity.mpr hle]
    by_cases hneg : n < 0
    · simp only [hneg]
      rfl
    · simp only [hneg]
      rfl
  · intro hlt
    have hfinite : Magnitude.ofRatio n.natAbs 1 ≠ .infinity := fun h =>
      Nat.not_le_of_lt hlt (hinfinity.mp h)
    have hcode := Magnitude.code_pos_of_isNearest (Int.natAbs_pos.mpr hn) hnearest hfinite
    obtain ⟨whole, hwhole⟩ := Magnitude.exists_whole_of_isNearest hnearest hfinite
    have htie : layout.tie = .up := rfl
    obtain ⟨zeros, k, hk, htext⟩ :=
      Layout.render_whole htie (fun _ => rfl) rfl hcode hfinite hwhole
    refine ⟨zeros, k, hk, ?_⟩
    rw [render, Binary64.ofInt, htext]
    simp only [decide_eq_true_eq]

theorem render_float_ofInt_of_lt {c zeros : Nat} (hc : c < 10 ^ 15)
    (habs : n.natAbs = c * 10 ^ zeros) (hlt : n.natAbs < overflow) :
    (float (.ofInt n)).render = toString n := by
  obtain ⟨m, -, hnearest, -, hfinite⟩ := render_float_ofInt hn
  obtain ⟨_, k, hk, htext⟩ := hfinite hlt
  have hne : m ≠ .infinity := fun h => by
    have hle := (hnearest.eq_infinity_iff Nat.one_pos).mp h
    omega
  have hpos : 0 < c := by
    by_contra hnot
    rw [show c = 0 by omega] at habs
    omega
  rw [habs] at hnearest
  obtain ⟨_, hself⟩ := Magnitude.isShortest_of_lt hpos hc hne hnearest
  rw [htext, sign_append_eq_toString_iff, habs]
  exact hk.unique hself

end Argument

namespace CommandLine

open Substitution

/-- An integer text is an integer where it has 64 bits, else the number nearest to it. -/
theorem parameterValue_toString (n : Int) :
    parameterValue (toString n).toList =
      if fitsInt64 n then .int (Int64.ofInt n) else .float (.ofInt n) := by
  rw [parameterValue, readInt64, readInt_toString, Option.bind_some, read_toString]
  cases fitsInt64 n <;> rfl

/-- An integer of 64 bits is put in for its placeholder as it was typed. A longer one is put in as
the shortest whole number that is rounded to the same number, so as it was typed if that is the
number: in any case with at most fifteen digits in front of its zeros. Beyond the largest numbers
there is only the word for infinity. -/
theorem parseParameter_integer {name v : String} (hname : '=' ∉ name.toList)
    (hblank : ∃ c ∈ name.toList, Text.isBlank c = false) (hv : IsIntDecimal v.toList) :
    ∃ (n : Int) (value : Argument), v = toString n ∧
      parseParameter (name ++ "=" ++ v) = .ok (String.ofList (Text.trim name.toList), value) ∧
      (fitsInt64 n = true → value = .int (Int64.ofInt n) ∧ value.render = v) ∧
      (fitsInt64 n = false → ∃ m : Magnitude, m.IsNearest n.natAbs 1 ∧
        value = .float (.signed (decide (n < 0)) m) ∧
        (overflow ≤ n.natAbs → value.render = (if n < 0 then "-" else "") ++ "INF") ∧
        (n.natAbs < overflow →
          (∃ zeros k : Nat, m.IsShortest zeros k ∧
            value.render = (if n < 0 then "-" else "") ++ toString k ∧
            (value.render = v ↔ k = n.natAbs)) ∧
          ∀ c zeros, c < 10 ^ 15 → n.natAbs = c * 10 ^ zeros → value.render = v)) ∧
      ∀ (wrapper : Wrapper) (arguments : Arguments), Function.Injective wrapper →
        arguments.last? (String.ofList (Text.trim name.toList)) = some value →
        (Segment.token (wrapper (String.ofList (Text.trim name.toList))).toList).render
          (Translator.replacements wrapper arguments) = value.render.toList := by
  obtain ⟨n, rfl⟩ := hv.exists_toString
  have hvalue := parameterValue_toString n
  refine ⟨n, _, rfl, parseParameter_append hname hblank _, ?_, ?_, ?_⟩
  · intro hfits
    have hrange := hfits
    simp only [fitsInt64, Bool.and_eq_true, decide_eq_true_eq] at hrange
    rw [hvalue, hfits, if_pos rfl, Argument.render,
      Int64.toInt_ofInt_of_le hrange.1 (Int.lt_add_one_of_le hrange.2)]
    exact ⟨rfl, rfl⟩
  · intro hlong
    have hzero : n ≠ 0 := by
      rintro rfl
      cases hlong
    obtain ⟨m, hofInt, hnearest, hinfinite, hfinite⟩ := Argument.render_float_ofInt hzero
    rw [hvalue, hlong, if_neg Bool.false_ne_true]
    refine ⟨m, hnearest, by rw [hofInt], hinfinite, fun hlt => ⟨?_, fun c zeros hc habs => ?_⟩⟩
    · obtain ⟨zeros, k, hk, htext⟩ := hfinite hlt
      exact ⟨zeros, k, hk, htext, by rw [htext, sign_append_eq_toString_iff]⟩
    · exact Argument.render_float_ofInt_of_lt hzero hc habs hlt
  · intro wrapper arguments hwrapper hlast
    rw [Segment.render, value, String.ofList_toList, Translator.lookup_replacements hwrapper,
      Translator.filling?, hlast]
    rfl

/-- An integer of 81 bits, with three digits in front of its zeros. -/
theorem parseParameter_integer_in_zeros :
    '=' ∉ " n ".toList ∧ (∃ c ∈ " n ".toList, Text.isBlank c = false) ∧
    IsIntDecimal "-1230000000000000000000000".toList ∧
    ∃ value, parseParameter (" n " ++ "=" ++ "-1230000000000000000000000") = .ok ("n", value) ∧
      (∃ m : Magnitude, m.IsNearest 1230000000000000000000000 1 ∧
        value = .float (.signed true m)) ∧
      value.render = "-1230000000000000000000000" ∧
      (Segment.token "%n%".toList).render
        (Translator.replacements PlaceholderStyle.percent.wrapper [("n", value)]) =
          "-1230000000000000000000000".toList := by
  have hname : '=' ∉ " n ".toList := by decide
  have hblank : ∃ c ∈ " n ".toList, Text.isBlank c = false := ⟨'n', by decide, by decide⟩
  have hdecimal : IsIntDecimal "-1230000000000000000000000".toList :=
    Or.inr ⟨"1230000000000000000000000".toList, by decide,
      ⟨by decide, List.all_eq_true.mp (by decide), by decide⟩, by decide⟩
  obtain ⟨n, value, htext, hparse, -, hlong, hplaceholder⟩ :=
    parseParameter_integer hname hblank hdecimal
  obtain rfl : n = -1230000000000000000000000 := by
    have hread := readInt_toString n
    rw [← htext] at hread
    exact (Option.some.inj (hread.symm.trans (by decide)))
  obtain ⟨m, hnearest, hvalue, -, hfinite⟩ := hlong (by decide)
  have hlt : (-1230000000000000000000000 : Int).natAbs < overflow := by
    decide +kernel
  have hrender := (hfinite hlt).2 123 22 (by decide) (by decide)
  have hwrapper : Function.Injective PlaceholderStyle.percent.wrapper :=
    PlaceholderStyle.injective_wrapper .percent
  have htoken := hplaceholder PlaceholderStyle.percent.wrapper [("n", value)] hwrapper rfl
  rw [hrender] at htoken
  exact ⟨hname, hblank, hdecimal, value, hparse, ⟨m, hnearest, hvalue⟩, hrender, htoken⟩

/-- The first integer that does not have 64 bits is rounded to itself and written as another one. -/
theorem parseParameter_past_int64 :
    IsIntDecimal "9223372036854775808".toList ∧
    ∃ value, parseParameter ("n" ++ "=" ++ "9223372036854775808") = .ok ("n", value) ∧
      value.render = "9223372036854776000" ∧ value.render ≠ "9223372036854775808" := by
  refine ⟨Or.inl ⟨by decide, List.all_eq_true.mp (by decide), by decide⟩,
    .float (.ofInt 9223372036854775808), by decide +kernel, ?_⟩
  have hrender : (Argument.float (.ofInt 9223372036854775808)).render = "9223372036854776000" := by
    decide +kernel
  rw [hrender]
  exact ⟨rfl, by decide⟩

end CommandLine

end Phrasebook
