import Phrasebook.Argument
import Phrasebook.Proofs.PlainNumerals
import Phrasebook.Proofs.ConditionReading

/-!
# Numbers in the texts of arguments

A text is read as a number in more spellings than conditions have, with exponents and with words for
the special values. A numeral is one of these spellings and stands for the number that it denotes,
and none of them has a blank in it.
-/

namespace Phrasebook

namespace Text

def HasNoBlank (s : List Char) : Prop := ∀ c ∈ s, isBlank c = false

-- The list is searched, not the finite type of all characters.
instance (s : List Char) : Decidable (HasNoBlank s) :=
  List.decidableBAll (fun c => isBlank c = false) s

theorem dropWhile_isBlank {s : List Char} (h : HasNoBlank s) : s.dropWhile isBlank = s := by
  cases s with
  | nil => rfl
  | cons c s => exact List.dropWhile_cons_of_neg (by simp [h c List.mem_cons_self])

theorem trim_of_hasNoBlank {s : List Char} (h : HasNoBlank s) : trim s = s := by
  have hreverse : HasNoBlank s.reverse := fun c hc => h c (List.mem_reverse.mp hc)
  rw [trim, dropWhile_isBlank h, dropWhile_isBlank hreverse, List.reverse_reverse]

theorem isBlank_eq_false_of_isDigit {c : Char} (h : c.isDigit = true) : isBlank c = false := by
  have hrange : 48 ≤ c.toNat ∧ c.toNat ≤ 57 := Char.isDigit_iff_toNat.mp h
  simp only [isBlank, Bool.or_eq_false_iff, Bool.and_eq_false_iff, decide_eq_false_iff_not,
    beq_eq_false_iff_ne]
  omega

theorem toLower_eq_self {c : Char} (h : c.toNat < 65 ∨ 90 < c.toNat) : c.toLower = c := by
  have hA : 'A'.val.toNat = 65 := rfl
  have hZ : 'Z'.val.toNat = 90 := rfl
  have hval : c.toNat = c.val.toNat := rfl
  have hupper : ¬ (c.val ≥ 'A'.val ∧ c.val ≤ 'Z'.val) := by
    simp only [ge_iff_le, UInt32.le_iff_toNat_le]
    omega
  exact dif_neg hupper

theorem toLower_of_isBlank {c : Char} (h : isBlank c = true) : c.toLower = c := by
  apply toLower_eq_self
  simp only [isBlank, Bool.or_eq_true, Bool.and_eq_true, decide_eq_true_eq, beq_iff_eq] at h
  omega

theorem toLower_of_isDigit {c : Char} (h : c.isDigit = true) : c.toLower = c := by
  have hrange : 48 ≤ c.toNat ∧ c.toNat ≤ 57 := Char.isDigit_iff_toNat.mp h
  apply toLower_eq_self
  omega

theorem hasNoBlank_append {s t : List Char} (hs : HasNoBlank s) (ht : HasNoBlank t) :
    HasNoBlank (s ++ t) := by
  intro c hc
  rcases List.mem_append.mp hc with hc | hc
  · exact hs c hc
  · exact ht c hc

theorem hasNoBlank_of_map_toLower {s word : List Char} (h : s.map Char.toLower = word)
    (hword : HasNoBlank word) : HasNoBlank s := by
  intro c hc
  by_contra hblank
  have hlower := toLower_of_isBlank (by simpa using hblank)
  have hmem : c.toLower ∈ word := h ▸ List.mem_map_of_mem hc
  rw [hlower] at hmem
  exact hblank (hword c hmem)

end Text

namespace Number

open Text

/-! ## Digits with a sign and a point -/

theorem map_toLower_ne_of_isDigit {digit letter : Char} {rest word : List Char}
    (hdigit : digit.isDigit = true) (hletter : letter.isDigit = false) :
    (digit :: rest).map Char.toLower ≠ letter :: word := by
  rw [List.map_cons, toLower_of_isDigit hdigit]
  intro heq
  rw [List.cons.injEq] at heq
  rw [heq.1, hletter] at hdigit
  cases hdigit

section Digits

variable {whole fraction : List Char} (hne : whole ≠ [])
  (hwhole : ∀ c ∈ whole, c.isDigit = true) (hfraction : ∀ c ∈ fraction, c.isDigit = true)

include hne hwhole hfraction

theorem readDecimal_digits :
    readDecimal (whole ++ (if fraction = [] then [] else '.' :: fraction)) =
      some (.ofParts whole fraction 0) := by
  have hempty : whole.isEmpty = false := by simpa using hne
  by_cases hnil : fraction = []
  · have hspan : spanDigits (whole ++ []) = (whole, []) := spanDigits_append hwhole nofun
    subst hnil
    rw [if_pos rfl, readDecimal, hspan]
    simp [hempty]
  · have hpoint : spanDigits (whole ++ '.' :: fraction) = (whole, '.' :: fraction) := by
      apply spanDigits_append hwhole
      rintro c ⟨⟩
      rfl
    have hspan : spanDigits (fraction ++ []) = (fraction, []) := spanDigits_append hfraction nofun
    rw [List.append_nil] at hspan
    rw [if_neg hnil, readDecimal, hpoint]
    simp [hspan, hempty]

theorem read_digits {s : List Char} {negative : Bool}
    (hs : takeSign s = (negative, whole ++ (if fraction = [] then [] else '.' :: fraction))) :
    Binary64.read s =
      some (.signed negative (Decimal.ofParts whole fraction 0).toMagnitude) := by
  obtain ⟨digit, digits, hcons⟩ := List.exists_cons_of_ne_nil hne
  have hdigit : digit.isDigit = true := hwhole digit (hcons ▸ List.mem_cons_self)
  have hword : ∀ (letter : Char) (word : List Char), letter.isDigit = false →
      (whole ++ (if fraction = [] then [] else '.' :: fraction)).map Char.toLower ≠
        letter :: word := by
    intro letter word hletter
    rw [hcons, List.cons_append]
    exact map_toLower_ne_of_isDigit hdigit hletter
  rw [Binary64.read, readWith, hs]
  simp only [readMagnitude, readDecimal_digits hne hwhole hfraction, String.reduceToList,
    hword 'n' _ rfl, hword 'i' _ rfl]
  rfl

end Digits

theorem eq_sign_append (s : List Char) :
    ∃ sign, (sign = [] ∨ sign = ['-'] ∨ sign = ['+']) ∧ s = sign ++ (takeSign s).2 := by
  unfold takeSign
  split
  · exact ⟨['-'], by simp, rfl⟩
  · exact ⟨['+'], by simp, rfl⟩
  · exact ⟨[], by simp, rfl⟩

theorem takeSign_of_isDigit {digit : Char} (h : digit.isDigit = true) (rest : List Char) :
    takeSign (digit :: rest) = (false, digit :: rest) := by
  unfold takeSign
  split
  · rename_i heq
    cases heq
    cases h
  · rename_i heq
    cases heq
    cases h
  · rfl

theorem exists_digits_of_readInt {s : List Char} {n : Int} (h : readInt s = some n) :
    ∃ negative digits, takeSign s = (negative, digits) ∧ digits ≠ [] ∧
      (∀ c ∈ digits, c.isDigit = true) ∧
      n = if negative then -(ofDecimalDigits digits : Int) else ofDecimalDigits digits := by
  unfold readInt at h
  dsimp only at h
  split at h
  · cases h
  · rename_i hdigits
    simp only [Bool.or_eq_true, Bool.not_eq_true', not_or, Bool.not_eq_false, List.all_eq_true,
      List.isEmpty_iff] at hdigits
    exact ⟨_, _, rfl, hdigits.1, hdigits.2, (Option.some.inj h).symm⟩

theorem read_integer {s digits : List Char} {negative : Bool}
    (hs : takeSign s = (negative, digits)) (hne : digits ≠ [])
    (hdigits : ∀ c ∈ digits, c.isDigit = true) :
    Binary64.read s = some (.signed negative (.ofRatio (ofDecimalDigits digits) 1)) := by
  have hs : takeSign s = (negative, digits ++ (if ([] : List Char) = [] then [] else ['.'])) := by
    rw [hs, if_pos rfl, List.append_nil]
  have hnearest := Decimal.isNearest_ofParts digits []
  rw [List.append_nil, List.length_nil, Nat.pow_zero] at hnearest
  rw [read_digits hne hdigits (List.forall_mem_nil _) hs,
    hnearest.unique Nat.one_pos (Magnitude.isNearest_ofRatio _ Nat.one_pos)]

theorem isDigit_of_mem_decimal {n : Nat} : ∀ c ∈ Nat.toDigits 10 n, c.isDigit = true :=
  fun _ => Nat.isDigit_of_mem_toDigits (by decide) (by decide)

theorem takeSign_toString (n : Int) :
    takeSign (toString n).toList = (decide (n < 0), Nat.toDigits 10 n.natAbs) := by
  cases n with
  | ofNat n =>
      have htext : (toString (Int.ofNat n)).toList = Nat.toDigits 10 n := by
        rw [Int.toString_eq_repr, Int.repr, Nat.toList_repr]
      obtain ⟨digit, digits, hcons⟩ := List.exists_cons_of_ne_nil (Nat.toDigits_ne_nil (n := n))
      have hdigit := isDigit_of_mem_decimal digit (hcons ▸ List.mem_cons_self)
      have habs : (Int.ofNat n).natAbs = n := rfl
      rw [htext, habs, hcons, takeSign_of_isDigit hdigit]
      simp
  | negSucc n =>
      have htext : (toString (Int.negSucc n)).toList = '-' :: Nat.toDigits 10 (n + 1) := by
        rw [Int.toString_eq_repr, Int.repr, String.toList_append, Nat.toList_repr]
        rfl
      rw [htext, takeSign, Int.natAbs_negSucc]
      simp [Int.negSucc_lt_zero]

theorem read_toString (n : Int) : Binary64.read (toString n).toList = some (.ofInt n) := by
  rw [read_integer (takeSign_toString n) Nat.toDigits_ne_nil isDigit_of_mem_decimal,
    ofDecimalDigits_toDigits, Binary64.ofInt]

/-! ## No blanks in numbers -/

theorem hasNoBlank_of_digits {s : List Char} (h : ∀ c ∈ s, c.isDigit = true) : HasNoBlank s :=
  fun c hc => isBlank_eq_false_of_isDigit (h c hc)

theorem hasNoBlank_of_takeSign {s : List Char} (h : HasNoBlank (takeSign s).2) : HasNoBlank s := by
  obtain ⟨sign, hsign, hs⟩ := eq_sign_append s
  have hblank : HasNoBlank sign := by
    rcases hsign with rfl | rfl | rfl <;> decide
  rw [hs]
  exact hasNoBlank_append hblank h

theorem hasNoBlank_of_readExponent {s : List Char} {e : Int} (h : readExponent s = some e) :
    HasNoBlank s := by
  have hint : readInt s = some e := h
  obtain ⟨negative, digits, hsign, -, hdigits, -⟩ := exists_digits_of_readInt hint
  apply hasNoBlank_of_takeSign
  rw [hsign]
  exact hasNoBlank_of_digits hdigits

theorem hasNoBlank_of_exponent {rest : List Char} {decimal : Int → Decimal} {d : Decimal}
    (h : (match rest with
      | [] => some (decimal 0)
      | c :: rest => if c == 'e' || c == 'E' then (readExponent rest).map decimal else none) =
        some d) : HasNoBlank rest := by
  cases rest with
  | nil => nofun
  | cons c rest =>
      dsimp only at h
      split at h
      · rename_i hletter
        obtain ⟨e, hexponent, -⟩ := Option.map_eq_some_iff.mp h
        have hc : HasNoBlank [c] := by
          simp only [Bool.or_eq_true, beq_iff_eq] at hletter
          rcases hletter with rfl | rfl <;> decide
        exact hasNoBlank_append hc (hasNoBlank_of_readExponent hexponent)
      · cases h

theorem hasNoBlank_of_readDecimal {s : List Char} {d : Decimal} (h : readDecimal s = some d) :
    HasNoBlank s := by
  have hspan : ∀ t, HasNoBlank (spanDigits t).2 → HasNoBlank t := by
    intro t ht
    rw [← takeWhile_append_spanDigits t]
    exact hasNoBlank_append (hasNoBlank_of_digits fun c => isDigit_of_mem_spanDigits) ht
  apply hspan
  unfold readDecimal at h
  generalize spanDigits s = parts at h ⊢
  obtain ⟨whole, rest⟩ := parts
  dsimp only at h ⊢
  split at h
  · rename_i fraction
    split at h
    · cases h
    · exact hasNoBlank_append (by decide : HasNoBlank ['.'])
        (hspan fraction (hasNoBlank_of_exponent h))
  · split at h
    · cases h
    · exact hasNoBlank_of_exponent h

theorem hasNoBlank_of_read {s : List Char} {x : Binary64} (h : Binary64.read s = some x) :
    HasNoBlank s := by
  apply hasNoBlank_of_takeSign
  rw [Binary64.read, readWith] at h
  generalize takeSign s = signed at h ⊢
  obtain ⟨negative, rest⟩ := signed
  dsimp only at h ⊢
  split at h
  · rename_i hword
    exact hasNoBlank_of_map_toLower hword (by decide)
  · obtain ⟨m, hm, -⟩ := Option.map_eq_some_iff.mp h
    rw [readMagnitude] at hm
    split at hm
    · rename_i hword
      simp only [Bool.or_eq_true, decide_eq_true_eq] at hword
      rcases hword with hword | hword
      · exact hasNoBlank_of_map_toLower hword (by decide)
      · exact hasNoBlank_of_map_toLower hword (by decide)
    · obtain ⟨d, hd, -⟩ := Option.map_eq_some_iff.mp hm
      exact hasNoBlank_of_readDecimal hd

end Number

namespace Condition

open Number

/-- A numeral of a condition is read as the same number in the text of an argument. -/
theorem Numeral.Denotes.read {n : Numeral} {x : Binary64} (hx : n.Denotes x) :
    Binary64.read n.text = some x := by
  obtain ⟨m, rfl, hm⟩ := hx
  have hsign : takeSign n.text =
      (n.negative, n.whole ++ (if n.fraction = [] then [] else '.' :: n.fraction)) := by
    obtain ⟨digit, digits, hwhole, hdigit⟩ := n.exists_whole_eq
    rw [Numeral.text, Numeral.sign, Numeral.fractionText, hwhole]
    cases n.negative with
    | true => rfl
    | false => exact takeSign_of_isDigit hdigit _
  rw [read_digits n.whole_ne_nil n.isDigit_whole n.isDigit_fraction hsign,
    hm.unique (Nat.pow_pos (by decide)) (Decimal.isNearest_ofParts n.whole n.fraction)]

end Condition

/-- A text that spells a number stands for what that number stands for as an argument. -/
theorem Argument.number?_text {s : String} {x : Number.Binary64}
    (h : Number.Binary64.read s.toList = some x) :
    (Argument.text s).number? = (Argument.float x).number? := by
  rw [number?, Text.trim_of_hasNoBlank (Number.hasNoBlank_of_read h), h, number?]
  cases x <;> rfl

end Phrasebook
