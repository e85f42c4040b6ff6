import Phrasebook.Proofs.InfiniteMagnitudes
import Phrasebook.Proofs.PrintedConditions

/-!
# Conditions without a written form

The undefined number and the infinities have no numerals. A condition that needs one is printed all
the same, in words that no condition is read from.
-/

namespace Phrasebook.Condition

open Number Text

/-! ## Words in the place of numerals -/

theorem number_plain_of_not_isFinite {x : Binary64} (hx : x.isFinite = false) (rest : List Char) :
    ∃ fault, number (skipBlanks (x.plain.toList ++ rest)) = .error fault := by
  cases x with
  | nan => exact ⟨_, rfl⟩
  | signed negative m =>
      have hinfinite : m.isInfinite = true := by simpa [Binary64.isFinite] using hx
      rw [Binary64.plain, Layout.render, if_pos hinfinite]
      cases negative
      · exact ⟨_, rfl⟩
      · exact ⟨_, rfl⟩

theorem lowerBound_boundText {x : Binary64} (hx : ¬ (x.isFinite = true ∨ x = .negativeInfinity))
    (rest : List Char) :
    ∃ fault, lowerBound (skipBlanks ((boundText x).toList ++ rest)) = .error fault := by
  rw [not_or, Bool.not_eq_true] at hx
  rcases Binary64.not_isFinite_cases hx.1 with rfl | rfl | rfl
  · exact ⟨_, rfl⟩
  · exact ⟨_, rfl⟩
  · exact absurd rfl hx.2

theorem upperBound_boundText {x : Binary64} (hx : ¬ (x.isFinite = true ∨ x = .infinity))
    (rest : List Char) :
    ∃ fault, upperBound (skipBlanks ((boundText x).toList ++ rest)) = .error fault := by
  rw [not_or, Bool.not_eq_true] at hx
  rcases Binary64.not_isFinite_cases hx.1 with rfl | rfl | rfl
  · exact ⟨_, rfl⟩
  · exact absurd rfl hx.2
  · exact ⟨_, rfl⟩

/-! ## Printed lists and intervals -/

def numbersText (numbers : List Binary64) : List Char :=
  List.intercalate [','] (numbers.map fun x => x.plain.toList)

theorem numbersText_cons_cons (x y : Binary64) (numbers : List Binary64) :
    numbersText (x :: y :: numbers) = x.plain.toList ++ ',' :: numbersText (y :: numbers) := by
  simp [numbersText]

theorem isFinite_of_numbers_plain {x : Binary64} {rest : List Char}
    {result : List Binary64 × List Char}
    (h : numbers (x.plain.toList ++ rest) = .ok result) : x.isFinite = true := by
  by_contra hx
  obtain ⟨fault, hfault⟩ := number_plain_of_not_isFinite (by simpa using hx) rest
  rw [numbers_of_fault hfault] at h
  cases h

theorem isFinite_of_numbers_eq_ok {xs : List Binary64} {rest : List Char}
    {result : List Binary64 × List Char}
    (h : numbers (numbersText xs ++ '\x7d' :: rest) = .ok result) :
    xs ≠ [] ∧ ∀ x ∈ xs, x.isFinite = true := by
  induction xs generalizing result with
  | nil =>
      have hfault : number (skipBlanks (numbersText [] ++ '\x7d' :: rest)) = .error _ := rfl
      rw [numbers_of_fault hfault] at h
      cases h
  | cons x tail ih =>
      refine ⟨List.cons_ne_nil _ _, ?_⟩
      cases tail with
      | nil =>
          have hx : x.isFinite = true := isFinite_of_numbers_plain (by simpa [numbersText] using h)
          simpa using hx
      | cons y tail =>
          rw [numbersText_cons_cons, List.append_assoc, List.cons_append] at h
          have hx := isFinite_of_numbers_plain h
          obtain ⟨n, htext, hdenotes⟩ := exists_numeral_plain hx
          have hnumber := number_complete hdenotes
            (endsNumeral_append_cons isBlanks_nil (c := ',') (by decide) (by decide)
              (numbersText (y :: tail) ++ '\x7d' :: rest))
          rw [List.nil_append, ← skipBlanks_of_no_leading_blank (n.no_leading_blank _), htext]
            at hnumber
          rw [numbers_of_comma hnumber rfl] at h
          cases hmore : numbers (numbersText (y :: tail) ++ '\x7d' :: rest) with
          | error fault =>
              rw [hmore] at h
              cases h
          | ok result =>
              intro z hz
              rcases List.mem_cons.mp hz with rfl | hz
              · exact hx
              · exact (ih hmore).2 z hz

theorem isWritable_of_intervalBody_eq_ok {range : Interval} {includesLower : Bool}
    {rest : List Char} {result : Condition × List Char}
    (h : intervalBody includesLower ((boundText range.lower).toList ++
      ',' :: ((boundText range.upper).toList ++ rest)) = .ok result) :
    IsWritable (.interval range) := by
  have hlower : range.lower.isFinite = true ∨ range.lower = .negativeInfinity := by
    by_contra hlower
    obtain ⟨fault, hfault⟩ := lowerBound_boundText hlower
      (',' :: ((boundText range.upper).toList ++ rest))
    simp only [intervalBody, hfault] at h
    cases h
  refine ⟨hlower, ?_⟩
  by_contra hupper
  obtain ⟨fault, hfault⟩ := upperBound_boundText hupper rest
  have hwrites := writesLower_boundText hlower
  have hread := lowerBound_complete hwrites
    (endsNumeral_append_cons isBlanks_nil (c := ',') (by decide) (by decide)
      ((boundText range.upper).toList ++ rest))
  rw [List.nil_append, ← skipBlanks_of_no_leading_blank (hwrites.no_leading_blank _)] at hread
  have hcomma : ∀ s, skipBlanks (',' :: s) = ',' :: s := fun _ => rfl
  simp only [intervalBody, hread, hcomma, hfault] at h
  cases h

theorem toList_render_values (xs : List Binary64) :
    (values xs).render.toList = '\x7b' :: (numbersText xs ++ ['\x7d']) := by
  simp [render, numbersText, String.toList_intercalate, Function.comp_def]

theorem toList_render_interval (range : Interval) :
    (interval range).render.toList =
      openingBracket range.includesLower :: ((boundText range.lower).toList ++
        ',' :: ((boundText range.upper).toList ++ [closingBracket range.includesUpper])) := by
  obtain ⟨lower, upper, includesLower, includesUpper⟩ := range
  cases includesLower <;> cases includesUpper <;> simp [render, openingBracket, closingBracket]

theorem body_openingBracket (includesLower : Bool) (s : List Char) :
    body (skipBlanks (openingBracket includesLower :: s)) =
      some (intervalBody includesLower s) := by
  cases includesLower <;> rfl

/-- The printed form of a condition is read as some condition only if the condition has a written
form. -/
theorem isWritable_of_parse_render {c : Condition} {result : Condition × String}
    (h : parse c.render = .ok result) : c.IsWritable := by
  obtain ⟨d, text⟩ := result
  rw [parse_eq_ok_iff, read_eq_ok_iff] at h
  obtain ⟨rest, hbody, -⟩ := h
  cases c with
  | values xs =>
      rw [toList_render_values] at hbody
      have hvalues : valuesBody (numbersText xs ++ ['\x7d']) = .ok (d, rest) :=
        Option.some.inj hbody
      cases hnumbers : numbers (numbersText xs ++ ['\x7d']) with
      | error fault =>
          rw [valuesBody, hnumbers] at hvalues
          cases hvalues
      | ok result => exact isFinite_of_numbers_eq_ok hnumbers
  | interval range =>
      rw [toList_render_interval, body_openingBracket] at hbody
      exact isWritable_of_intervalBody_eq_ok (Option.some.inj hbody)

theorem parse_append_of_writes {written : List Char} {c : Condition} (h : Writes written c)
    (text : String) :
    parse (String.ofList written ++ text) = .ok (c, String.ofList (skipBlanks text.toList)) := by
  have hbody := body_complete h text.toList
  rw [parse_eq_ok_iff, read_eq_ok_iff, String.toList_append, String.toList_ofList,
    String.toList_ofList, skipBlanks_of_no_leading_blank (h.no_leading_blank _)]
  exact ⟨_, hbody, rfl⟩

theorem parse_render_isOk_iff (c : Condition) :
    (∃ result, parse c.render = .ok result) ↔ c.IsWritable := by
  constructor
  · rintro ⟨result, hresult⟩
    exact isWritable_of_parse_render hresult
  · intro h
    have hread := parse_append_of_writes (writes_render h) ""
    rw [String.ofList_toList, String.append_empty] at hread
    exact ⟨_, hread⟩

end Phrasebook.Condition
