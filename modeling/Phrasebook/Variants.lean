import Phrasebook.Condition.Reader
import Phrasebook.Plural
import Phrasebook.Text.Split

/-!
# Plural variants

A plural template is a list of fragments with `|` between them. A fragment with a
condition is an explicit variant; the others are standard variants and are numbered
in order. Explicit variants come first, and the first variant that applies to a
number is its text. There is no way to write a `|` inside a fragment.
-/

namespace Phrasebook

open Number

/-- Stands between the variants of a template. -/
def variantSeparator : Char := '|'

/-- When a variant applies. -/
inductive Variant.Kind where
  /-- The number has this plural category. -/
  | standard (position : Nat)
  | explicit (condition : Condition)
  deriving DecidableEq

structure Variant where
  kind : Variant.Kind
  text : String
  deriving DecidableEq

def Variant.render (v : Variant) : String :=
  match v.kind with
  | .standard position => "#" ++ toString position ++ " " ++ v.text
  | .explicit condition => condition.render ++ " " ++ v.text

/-- The forms of a message, in the order in which they are tried. -/
structure Variants where
  toList : List Variant
  deriving DecidableEq

namespace Variants

def fragments (template : String) : List (List Char) :=
  Text.split variantSeparator template.toList

def explicit? (fragment : List Char) : Option Variant :=
  match Condition.read fragment with
  | .ok (condition, text) => some ⟨.explicit condition, String.ofList text⟩
  | .error _ => none

/-- Number the fragments that hold no explicit variant. -/
def standard (fragments : List (List Char)) : List Variant :=
  (fragments.filter fun f => (explicit? f).isNone).zipIdx.map fun (f, i) =>
    ⟨.standard i, String.ofList f⟩

def ofTemplate (template : String) : Variants :=
  ⟨(fragments template).filterMap explicit? ++ standard (fragments template)⟩

def length (vs : Variants) : Nat := vs.toList.length

/-- What a selection found, and the numbers and locales it asked the strategy about. -/
structure Selection where
  text : Option String
  asked : List (Int64 × String)
  deriving DecidableEq

/-- Try variants in order. The category is asked for at the first standard variant and
remembered for the others. -/
def find (number : Binary64) (locale : String) (strategy : Strategy) :
    Option Nat → List (Int64 × String) → List Variant → Selection
  | _, asked, [] => ⟨none, asked⟩
  | known, asked, v :: vs =>
    match v.kind with
    | .explicit condition =>
      if condition.holds number then ⟨some v.text, asked⟩
      else find number locale strategy known asked vs
    | .standard position =>
      match known with
      | some category =>
        if category = position then ⟨some v.text, asked⟩
        else find number locale strategy known asked vs
      | none =>
        let category := strategy number.truncate locale
        let asked := asked ++ [(number.truncate, locale)]
        if category = position then ⟨some v.text, asked⟩
        else find number locale strategy (some category) asked vs

/-- The first variant that applies to a number in a locale. Plural categories are those of the
number truncated toward zero. -/
def select (vs : Variants) (number : Binary64) (locale : String) (strategy : Strategy) :
    Selection :=
  find number locale strategy none [] vs.toList

end Variants

end Phrasebook
