import Phrasebook.Locale

/-!
# Plural categories

Languages that count alike form a family. A family has a number of categories and
says which of them an integer falls in; category `0` is usually the singular. Unknown
languages have one category.
-/

namespace Phrasebook

/-- Decides which plural form of a message a number takes in a locale. -/
abbrev Strategy := Int64 → String → Nat

inductive Family where
  /-- A singular for one. -/
  | oneOther
  /-- A singular for zero and one. -/
  | zeroOneOther
  | slavic
  | czechSlovak
  | irish
  | lithuanian
  | slovenian
  | macedonian
  | maltese
  | latvian
  | polish
  | welsh
  | romanian
  | arabic
  /-- No distinction at all. -/
  | single
  deriving DecidableEq

namespace Family

def oneOtherLanguages : List String :=
  ["af", "bn", "bg", "ca", "da", "de", "el", "en", "eo", "es", "et", "eu", "fa", "fi", "fo",
    "fur", "fy", "gl", "gu", "ha", "he", "hu", "is", "it", "ku", "lb", "ml", "mn", "mr", "nah",
    "nb", "ne", "nl", "nn", "no", "oc", "om", "or", "pa", "pap", "ps", "pt", "so", "sq", "sv",
    "sw", "ta", "te", "tk", "ur", "zu"]

def zeroOneOtherLanguages : List String :=
  ["am", "bh", "fil", "fr", "gun", "hi", "hy", "ln", "mg", "nso", "pt_BR", "ti", "wa"]

def slavicLanguages : List String := ["be", "bs", "hr", "ru", "sh", "sr", "uk"]

/-- The families of languages that share theirs with few others. -/
def smallFamilies : List (String × Family) :=
  [("cs", .czechSlovak), ("sk", .czechSlovak), ("ga", .irish), ("lt", .lithuanian),
    ("sl", .slovenian), ("mk", .macedonian), ("mt", .maltese), ("lv", .latvian), ("pl", .polish),
    ("cy", .welsh), ("ro", .romanian), ("ar", .arabic)]

def ofLanguage (language : String) : Family :=
  if language ∈ oneOtherLanguages then .oneOther
  else if language ∈ zeroOneOtherLanguages then .zeroOneOther
  else if language ∈ slavicLanguages then .slavic
  else (smallFamilies.lookup language).getD .single

def count : Family → Nat
  | .single => 1
  | .oneOther | .zeroOneOther | .macedonian => 2
  | .slavic | .czechSlovak | .irish | .lithuanian | .latvian | .polish | .romanian => 3
  | .slovenian | .maltese | .welsh => 4
  | .arabic => 6

/-- The category of an integer. Last digits keep the sign of the integer. -/
def category (family : Family) (n : Int) : Nat :=
  let n10 := n.tmod 10
  let n100 := n.tmod 100
  match family with
  | .oneOther => if n = 1 then 0 else 1
  | .zeroOneOther => if n = 0 ∨ n = 1 then 0 else 1
  | .slavic =>
    if n10 = 1 ∧ n100 ≠ 11 then 0
    else if (2 ≤ n10 ∧ n10 ≤ 4) ∧ ¬(10 ≤ n100 ∧ n100 < 20) then 1
    else 2
  | .czechSlovak => if n = 1 then 0 else if 2 ≤ n ∧ n ≤ 4 then 1 else 2
  | .irish => if n = 1 then 0 else if n = 2 then 1 else 2
  | .lithuanian =>
    if n10 = 1 ∧ n100 ≠ 11 then 0
    else if 2 ≤ n10 ∧ ¬(10 ≤ n100 ∧ n100 < 20) then 1
    else 2
  | .slovenian =>
    if n100 = 1 then 0 else if n100 = 2 then 1 else if n100 = 3 ∨ n100 = 4 then 2 else 3
  | .macedonian => if n10 = 1 then 0 else 1
  | .maltese =>
    if n = 1 then 0
    else if n = 0 ∨ (2 ≤ n100 ∧ n100 ≤ 10) then 1
    else if 11 ≤ n100 ∧ n100 ≤ 19 then 2
    else 3
  | .latvian => if n = 0 then 0 else if n10 = 1 ∧ n100 ≠ 11 then 1 else 2
  | .polish =>
    if n = 1 then 0
    else if (2 ≤ n10 ∧ n10 ≤ 4) ∧ ¬(12 ≤ n100 ∧ n100 ≤ 14) then 1
    else 2
  | .welsh => if n = 1 then 0 else if n = 2 then 1 else if n = 8 ∨ n = 11 then 2 else 3
  | .romanian => if n = 1 then 0 else if n = 0 ∨ (1 ≤ n100 ∧ n100 < 20) then 1 else 2
  | .arabic =>
    if 0 ≤ n ∧ n ≤ 2 then n.toNat
    else if 3 ≤ n100 ∧ n100 ≤ 10 then 3
    else if 11 ≤ n100 ∧ n100 ≤ 99 then 4
    else 5
  | .single => 0

end Family

namespace Plural

def family (locale : String) : Family := .ofLanguage (Locale.language locale)

def count (locale : String) : Nat := (family locale).count

def category (n : Int64) (locale : String) : Nat := (family locale).category n.toInt

end Plural

/-- The plural categories of the languages of the world. -/
def Strategy.standard : Strategy := Plural.category

end Phrasebook
