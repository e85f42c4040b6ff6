import Mathlib.Data.List.Forall2
import Phrasebook.CommandLine
import Phrasebook.Proofs.ArgumentTexts
import Phrasebook.Proofs.EqualNumbers
import Phrasebook.Proofs.Identifiers

/-!
# Types of parameters

A parameter of a command line is an integer or a number where its text spells one. An integer is
exact until it is counted with, a text is rounded when it is read: both end at the number nearest
to the integer, with a sign on zero or without. No type changes which variant is selected.
-/

namespace Phrasebook

open Number

namespace Number

/-- A text that spells an integer is read as the number nearest to it. Only a minus before zero is
lost in the integer. -/
theorem read_equals_of_readInt {s : List Char} {n : Int} (h : readInt s = some n) :
    ∃ x, Binary64.read s = some x ∧ (Binary64.ofInt n).equals x = true := by
  obtain ⟨negative, digits, hsign, hne, hdigits, rfl⟩ := exists_digits_of_readInt h
  refine ⟨_, read_integer hsign hne hdigits, Binary64.equals_iff.mpr ?_⟩
  have habs : (if negative then -(ofDecimalDigits digits : Int)
      else ofDecimalDigits digits).natAbs = ofDecimalDigits digits := by
    cases negative <;> simp
  rw [Binary64.ofInt, habs]
  refine ⟨_, _, _, rfl, rfl, ?_⟩
  by_cases hzero : ofDecimalDigits digits = 0
  · right
    rw [hzero]
    decide +kernel
  · left
    cases negative with
    | true => exact decide_eq_true (by simp only [if_true]; omega)
    | false => exact decide_eq_false (by simp)

theorem readInt_of_readInt64 {s : List Char} {n : Int64} (h : readInt64 s = some n) :
    readInt s = some n.toInt := by
  obtain ⟨i, hi, hn⟩ := Option.bind_eq_some_iff.mp h
  split at hn
  · rename_i hfits
    simp only [fitsInt64, Bool.and_eq_true, decide_eq_true_eq] at hfits
    rw [hi, ← Option.some.inj hn, Int64.toInt_ofInt_of_le hfits.1 (Int.lt_add_one_of_le hfits.2)]
  · cases hn

end Number

namespace Argument

theorem sameCount_number?_self (v : Argument) : SameCount v.number? v.number? := by
  cases hv : v.number? with
  | none => exact .none
  | some x =>
      cases x with
      | nan => exact absurd hv v.number?_ne_nan
      | signed negative m => exact .some (Binary64.equals_iff.mpr ⟨_, _, m, rfl, rfl, .inl rfl⟩)

end Argument

namespace Translator

/-- Arguments with the same names, whose numbers are equal one by one. -/
def SameNumbers : Arguments → Arguments → Prop :=
  List.Forall₂ fun a b => a.1 = b.1 ∧ SameCount a.2.number? b.2.number?

theorem sameNumbers_self (arguments : Arguments) : SameNumbers arguments arguments :=
  List.forall₂_same.mpr fun argument _ => ⟨rfl, argument.2.sameCount_number?_self⟩

theorem sameCount_lookup {arguments others : Arguments} (h : SameNumbers arguments others)
    (name : String) : SameCount ((arguments.lookup name).bind Argument.number?)
      ((others.lookup name).bind Argument.number?) := by
  induction h with
  | nil => exact .none
  | @cons a b arguments others hfirst _ ih =>
      rw [List.lookup_cons, List.lookup_cons, ← hfirst.1]
      cases name == a.1 with
      | true => exact hfirst.2
      | false => exact ih

theorem sameCount_count? {arguments others : Arguments} (h : SameNumbers arguments others) :
    SameCount (count? arguments) (count? others) :=
  sameCount_lookup (List.forall₂_reverse_iff.mpr h) countName

end Translator

namespace CommandLine

theorem sameCount_parameterValue (v : String) :
    SameCount (parameterValue v.toList).number? (Argument.text v).number? := by
  unfold parameterValue
  split
  · rename_i n hn
    obtain ⟨x, hread, hequals⟩ := read_equals_of_readInt (readInt_of_readInt64 hn)
    obtain ⟨_, _, m, -, rfl, -⟩ := Binary64.equals_iff.mp hequals
    rw [Argument.number?_text hread]
    exact .some hequals
  · split
    · rename_i x hread
      rw [Argument.number?_text hread]
      exact Argument.sameCount_number?_self _
    · rw [String.ofList_toList]
      exact Argument.sameCount_number?_self _

theorem parseParameter_append {name : String} (hname : '=' ∉ name.toList)
    (hblank : ∃ c ∈ name.toList, Text.isBlank c = false) (v : String) :
    parseParameter (name ++ "=" ++ v) =
      .ok (String.ofList (Text.trim name.toList), parameterValue v.toList) := by
  obtain ⟨c, hmem, hc⟩ := hblank
  have hlist : (name ++ "=" ++ v).toList = name.toList ++ '=' :: v.toList := by simp
  have hkept : (Text.trim name.toList).isEmpty = false :=
    List.isEmpty_eq_false_iff.mpr (List.ne_nil_of_mem (Text.mem_trim hmem hc))
  rw [parseParameter, hlist, Text.splitOnce_append _ hname]
  simp only [hkept]
  rfl

variable {σ : Type}

/-- A parameter with a name is accepted whatever its value is. The type of the value has no part in
what is counted, and so none in the text that is found for a message: the parameter can be given
with its plain text, before and after any other arguments. -/
theorem parseParameter_count {name : String} (hname : '=' ∉ name.toList)
    (hblank : ∃ c ∈ name.toList, Text.isBlank c = false) (v : String) :
    ∃ value, parseParameter (name ++ "=" ++ v) =
        .ok (String.ofList (Text.trim name.toList), value) ∧
      SameCount value.number? (Argument.text v).number? ∧
      ∀ (before after : Arguments) (loader : Loader σ) (strategy : Strategy)
        (key domain locale : String) (state : Snapshots × σ),
        let trimmed := String.ofList (Text.trim name.toList)
        Lookup.ofLoader loader strategy key domain locale
            (Translator.count? (before ++ (trimmed, value) :: after)) state =
          Lookup.ofLoader loader strategy key domain locale
            (Translator.count? (before ++ (trimmed, .text v) :: after)) state := by
  have hsame := sameCount_parameterValue v
  refine ⟨parameterValue v.toList, parseParameter_append hname hblank v, hsame, ?_⟩
  intro before after loader strategy key domain locale state trimmed
  apply Lookup.ofLoader_eq_of_sameCount
  apply Translator.sameCount_count?
  exact List.rel_append (Translator.sameNumbers_self before)
    (.cons ⟨rfl, hsame⟩ (Translator.sameNumbers_self after))

/-- The integer zero and the zero with a minus, whose text is found by its condition. -/
theorem parseParameter_count_minus_zero :
    let c := Catalog.ofList [("files", .text "file|files|{0}nothing")]
    let lookup : Lookup (Snapshots × Unit) :=
      .ofLoader (.ofCatalogs [(("default", "en"), c)]) .standard
    '=' ∉ " count ".toList ∧ (∃ c ∈ " count ".toList, Text.isBlank c = false) ∧
    ∃ value, parseParameter (" count " ++ "=" ++ "-0") = .ok ("count", value) ∧ value = .int 0 ∧
      (Argument.text "-0").number? = some (.signed true .zero) ∧
      SameCount value.number? (Argument.text "-0").number? ∧
      (lookup "files" "default" "en" (Translator.count? [("count", value)]) (.empty, ())).1 =
        some "nothing" ∧
      lookup "files" "default" "en" (Translator.count? [("count", value)]) (.empty, ()) =
        lookup "files" "default" "en" (Translator.count? [("count", .text "-0")]) (.empty, ()) := by
  intro c lookup
  have hname : '=' ∉ " count ".toList := by decide
  have hblank : ∃ c ∈ " count ".toList, Text.isBlank c = false := ⟨'c', by decide, by decide⟩
  obtain ⟨value, hparse, hsame, hlookup⟩ := parseParameter_count hname hblank "-0"
  have htrim : String.ofList (Text.trim " count ".toList) = "count" := by decide
  have htyped : parseParameter (" count " ++ "=" ++ "-0") = .ok ("count", .int 0) := by
    decide +kernel
  rw [htrim] at hparse
  obtain rfl : Argument.int 0 = value := by
    rw [htyped] at hparse
    injection hparse with hpair
    exact congrArg Prod.snd hpair
  have hequal := hlookup [] [] (.ofCatalogs [(("default", "en"), c)]) .standard "files" "default"
    "en" (.empty, ())
  rw [htrim] at hequal
  exact ⟨hname, hblank, _, hparse, rfl, by decide +kernel, hsame, by decide +kernel, hequal⟩

end CommandLine

end Phrasebook
