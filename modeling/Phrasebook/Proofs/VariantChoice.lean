import Phrasebook.Variants

/-!
# The meaning of a plural template

The text for a number is that of the first fragment whose condition holds for it. If there is
none, the plural category counts off the fragments without a condition.
-/

namespace Phrasebook.Variants

open Number

variable (number : Binary64) (locale : String) (strategy : Strategy)

def appliedText? (fragment : List Char) : Option String :=
  match Condition.read fragment with
  | .ok (condition, text) => if condition.holds number then some (String.ofList text) else none
  | .error _ => none

def isRejected (fragment : List Char) : Bool :=
  match Condition.read fragment with
  | .ok _ => false
  | .error _ => true

def rejected (template : String) : List (List Char) := (fragments template).filter isRejected

def accepted (template : String) : List (List Char) :=
  (fragments template).filter fun fragment => !isRejected fragment

theorem isNone_explicit? (fragment : List Char) :
    (explicit? fragment).isNone = isRejected fragment := by
  unfold explicit? isRejected
  cases Condition.read fragment <;> rfl

theorem standard_fragments (template : String) :
    standard (fragments template) =
      (rejected template).zipIdx.map fun (f, i) => ⟨.standard i, String.ofList f⟩ := by
  simp only [standard, rejected, isNone_explicit?]

theorem find_explicit (known : Option Nat) (asked : List (Int64 × String))
    (fragments : List (List Char)) (rest : List Variant) :
    find number locale strategy known asked (fragments.filterMap explicit? ++ rest) =
      match fragments.findSome? (appliedText? number) with
      | some text => ⟨some text, asked⟩
      | none => find number locale strategy known asked rest := by
  induction fragments with
  | nil => rfl
  | cons fragment fragments ih =>
      rw [List.findSome?_cons]
      cases hread : Condition.read fragment with
      | error e =>
          have hexplicit : explicit? fragment = none := by simp [explicit?, hread]
          have happlied : appliedText? number fragment = none := by simp [appliedText?, hread]
          rw [List.filterMap_cons_none hexplicit, happlied, ih]
      | ok result =>
          obtain ⟨condition, text⟩ := result
          have hexplicit : explicit? fragment = some ⟨.explicit condition, String.ofList text⟩ := by
            simp [explicit?, hread]
          rw [List.filterMap_cons_some hexplicit, List.cons_append, find]
          by_cases hholds : condition.holds number = true
          · have happlied : appliedText? number fragment = some (String.ofList text) := by
              simp [appliedText?, hread, hholds]
            simp [happlied, hholds]
          · have happlied : appliedText? number fragment = none := by
              simp [appliedText?, hread, hholds]
            simp [happlied, hholds, ih]

/-- Once the category is known, it counts off the standard variants from the first position. -/
theorem find_standard_of_known (category : Nat) (asked : List (Int64 × String))
    (texts : List (List Char)) (first : Nat) (hfirst : first ≤ category) :
    find number locale strategy (some category) asked
        ((texts.zipIdx first).map fun (f, i) => ⟨.standard i, String.ofList f⟩) =
      ⟨texts[category - first]?.map String.ofList, asked⟩ := by
  induction texts generalizing first with
  | nil => rfl
  | cons text texts ih =>
      rw [List.zipIdx_cons, List.map_cons, find]
      by_cases heq : category = first
      · simp [heq]
      · have hindex : category - first = category - (first + 1) + 1 := by omega
        rw [hindex, List.getElem?_cons_succ]
        simp only [heq, if_false]
        exact ih (first + 1) (by omega)

theorem find_standard (asked : List (Int64 × String)) (texts : List (List Char)) :
    find number locale strategy none asked
        (texts.zipIdx.map fun (f, i) => ⟨.standard i, String.ofList f⟩) =
      ⟨texts[strategy number.truncate locale]?.map String.ofList,
        if texts.isEmpty then asked else asked ++ [(number.truncate, locale)]⟩ := by
  cases texts with
  | nil => rfl
  | cons text texts =>
      rw [List.zipIdx_cons, List.map_cons, find]
      generalize strategy number.truncate locale = category
      cases category with
      | zero => simp
      | succ category =>
          have hrest := find_standard_of_known number locale strategy (category + 1)
            (asked ++ [(number.truncate, locale)]) texts 1 (by omega)
          simpa using hrest

theorem findSome?_accepted (template : String) :
    (accepted template).findSome? (appliedText? number) =
      (fragments template).findSome? (appliedText? number) := by
  unfold accepted
  induction fragments template with
  | nil => rfl
  | cons fragment fragments ih =>
      cases hread : Condition.read fragment with
      | error e =>
          have hrejected : isRejected fragment = true := by simp [isRejected, hread]
          have happlied : appliedText? number fragment = none := by simp [appliedText?, hread]
          simp [hrejected, happlied, ih]
      | ok result =>
          have hrejected : isRejected fragment = false := by simp [isRejected, hread]
          simp [hrejected, List.findSome?_cons, ih]

theorem select_ofTemplate (template : String) :
    (ofTemplate template).select number locale strategy =
      match (accepted template).findSome? (appliedText? number) with
      | some text => ⟨some text, []⟩
      | none => ⟨(rejected template)[strategy number.truncate locale]?.map String.ofList,
          if (rejected template).isEmpty then [] else [(number.truncate, locale)]⟩ := by
  rw [select, ofTemplate, standard_fragments, find_explicit, find_standard, findSome?_accepted]
  rfl

theorem rejected_of_plain {template : String} (h : accepted template = []) :
    rejected template = fragments template := by
  rw [rejected, List.filter_eq_self]
  intro fragment hfragment
  have hall := List.filter_eq_nil_iff.mp h fragment hfragment
  simpa using hall

theorem select_of_plain {template : String} (h : accepted template = []) :
    ((ofTemplate template).select number locale strategy).text =
      (fragments template)[strategy number.truncate locale]?.map String.ofList := by
  rw [select_ofTemplate, h, rejected_of_plain h]
  rfl

/-- The text of the first fragment that applies, or else the fragment that the category counts
off; the strategy is asked once if it comes to that and there is such a fragment. Fragments with
and without a condition may be mixed in any way. -/
theorem select_ofTemplate_meaning (template : String) :
    (∀ number locale strategy,
      (ofTemplate template).select number locale strategy =
        match (fragments template).findSome? (appliedText? number) with
        | some text => ⟨some text, []⟩
        | none => ⟨(rejected template)[strategy number.truncate locale]?.map String.ofList,
            if (rejected template).isEmpty then [] else [(number.truncate, locale)]⟩) ∧
    ∀ other, accepted other = accepted template → rejected other = rejected template →
      ∀ number locale strategy,
        (ofTemplate other).select number locale strategy =
          (ofTemplate template).select number locale strategy := by
  constructor
  · intro number locale strategy
    rw [select_ofTemplate, findSome?_accepted]
  · intro other haccepted hrejected number locale strategy
    rw [select_ofTemplate, select_ofTemplate, haccepted, hrejected]

theorem select_debt_first_or_last :
    accepted "one|other|[-Inf,0[debt" = accepted "[-Inf,0[debt|one|other" ∧
    rejected "one|other|[-Inf,0[debt" = rejected "[-Inf,0[debt|one|other" ∧
    ∀ number locale strategy,
      (ofTemplate "one|other|[-Inf,0[debt").select number locale strategy =
        (ofTemplate "[-Inf,0[debt|one|other").select number locale strategy :=
  have haccepted : accepted "one|other|[-Inf,0[debt" = accepted "[-Inf,0[debt|one|other" := by
    decide +kernel
  have hrejected : rejected "one|other|[-Inf,0[debt" = rejected "[-Inf,0[debt|one|other" := by
    decide +kernel
  ⟨haccepted, hrejected, (select_ofTemplate_meaning "[-Inf,0[debt|one|other").2
    "one|other|[-Inf,0[debt" haccepted hrejected⟩

end Phrasebook.Variants
