import Phrasebook.Proofs.ConditionReading
import Phrasebook.Proofs.PlainNumerals

/-!
# Printed conditions read back

A condition that has a written form is printed in it, so it is read back off any text that it
stands before, with every number as it was.
-/

namespace Phrasebook.Condition

open Number Text

/-- Some numbers, all of them finite, or an interval whose bounds are finite or missing: minus
infinity stands for no lower bound and infinity for no upper one. -/
def IsWritable : Condition → Prop
  | values numbers => numbers ≠ [] ∧ ∀ x ∈ numbers, x.isFinite = true
  | interval range =>
    (range.lower.isFinite = true ∨ range.lower = .negativeInfinity) ∧
      (range.upper.isFinite = true ∨ range.upper = .infinity)

theorem writesNumbers_intercalate {numbers : List Binary64} (hne : numbers ≠ [])
    (hfinite : ∀ x ∈ numbers, x.isFinite = true) :
    WritesNumbers (List.intercalate [','] (numbers.map fun x => x.plain.toList)) numbers := by
  induction numbers with
  | nil => exact absurd rfl hne
  | cons x rest ih =>
      obtain ⟨n, htext, hx⟩ := exists_numeral_plain (hfinite x List.mem_cons_self)
      cases rest with
      | nil =>
          have hlast := WritesNumbers.last isBlanks_nil hx isBlanks_nil
          simpa [htext] using hlast
      | cons next rest =>
          have hrest := ih (List.cons_ne_nil _ _) fun y hy => hfinite y (List.mem_cons_of_mem x hy)
          have hcomma := WritesNumbers.comma isBlanks_nil hx isBlanks_nil hrest
          simpa [htext] using hcomma

theorem boundText_of_isFinite {x : Binary64} (hx : x.isFinite = true) : boundText x = x.plain := by
  have hminus : x ≠ .negativeInfinity := by
    rintro rfl
    cases hx
  have hplus : x ≠ .infinity := by
    rintro rfl
    cases hx
  rw [boundText, if_neg hminus, if_neg hplus]

theorem writesLower_boundText {x : Binary64} (h : x.isFinite = true ∨ x = .negativeInfinity) :
    WritesLower (boundText x).toList x := by
  rcases h with hfinite | rfl
  · obtain ⟨n, htext, hx⟩ := exists_numeral_plain hfinite
    rw [boundText_of_isFinite hfinite, ← htext]
    exact .numeral hx
  · exact .infinity

theorem writesUpper_boundText {x : Binary64} (h : x.isFinite = true ∨ x = .infinity) :
    WritesUpper (boundText x).toList x := by
  rcases h with hfinite | rfl
  · obtain ⟨n, htext, hx⟩ := exists_numeral_plain hfinite
    rw [boundText_of_isFinite hfinite, ← htext]
    exact .numeral hx
  · exact .plusInfinity

theorem writes_render {c : Condition} (h : c.IsWritable) : Writes c.render.toList c := by
  cases c with
  | values numbers =>
      have hvalues := Writes.values (writesNumbers_intercalate h.1 h.2)
      simpa [render, String.toList_intercalate, Function.comp_def] using hvalues
  | interval range =>
      have hinterval : Writes _ (.interval range) :=
        .interval isBlanks_nil (writesLower_boundText h.1) isBlanks_nil isBlanks_nil
          (writesUpper_boundText h.2) isBlanks_nil
      -- The brackets depend on the two flags only.
      obtain ⟨lower, upper, includesLower, includesUpper⟩ := range
      cases includesLower <;> cases includesUpper <;>
        simpa [render, openingBracket, closingBracket] using hinterval

/-- A printed condition with any text behind it is read as that condition and the text without its
leading blanks. -/
theorem parse_render_append {c : Condition} (h : c.IsWritable) (text : String) :
    parse (c.render ++ text) = .ok (c, String.ofList (skipBlanks text.toList)) := by
  have hbody := body_complete (writes_render h) text.toList
  rw [parse_eq_ok_iff, read_eq_ok_iff, String.toList_append, String.toList_ofList,
    skipBlanks_of_no_leading_blank ((writes_render h).no_leading_blank _)]
  exact ⟨_, hbody, rfl⟩

/-- Both zeros keep their signs, and neither brackets nor digits of a text go to a condition. -/
theorem parse_render_signed_zeros :
    (values [.signed true .zero, .signed true (.ofRatio 5 2), .zero]).IsWritable ∧
    parse ("{-0,-2.5,0}" ++ " \n]1,2[|3") =
      .ok (values [.signed true .zero, .signed true (.ofRatio 5 2), .zero], "]1,2[|3") ∧
    (interval ⟨.ofInt 5, .signed true .zero, false, true⟩).IsWritable ∧
    parse ("]5,-0]" ++ ".5") =
      .ok (interval ⟨.ofInt 5, .signed true .zero, false, true⟩, ".5") := by
  have hvalues : (values [.signed true .zero, .signed true (.ofRatio 5 2), .zero]).IsWritable := by
    unfold IsWritable
    decide +kernel
  have hinterval : (interval ⟨.ofInt 5, .signed true .zero, false, true⟩).IsWritable := by
    unfold IsWritable
    decide +kernel
  have hprinted : (values [.signed true .zero, .signed true (.ofRatio 5 2), .zero]).render =
      "{-0,-2.5,0}" := by
    decide +kernel
  have hreversed : (interval ⟨.ofInt 5, .signed true .zero, false, true⟩).render = "]5,-0]" := by
    decide +kernel
  refine ⟨hvalues, ?_, hinterval, ?_⟩
  · rw [← hprinted]
    exact parse_render_append hvalues " \n]1,2[|3"
  · rw [← hreversed]
    exact parse_render_append hinterval ".5"

end Phrasebook.Condition
