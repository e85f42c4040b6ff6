import Phrasebook.Proofs.ConditionReading
import Phrasebook.Proofs.FinalTexts

/-!
# Variants that apply

A selection takes the text of the first variant that applies to a number, and the text of a variant
is the end of one fragment. So a message with a number is one of its variants or all of it, and
there is a text with a number exactly if there is one without.
-/

namespace Phrasebook

open Number

theorem Condition.suffix_of_read {fragment text : List Char} {c : Condition}
    (h : read fragment = .ok (c, text)) : text <:+ fragment := by
  obtain ⟨s, -, rfl⟩ := Split.exists_of_read h
  exact ⟨_, s.append_eq⟩

def Variant.applies (number : Binary64) (category : Nat) (v : Variant) : Bool :=
  match v.kind with
  | .explicit condition => condition.holds number
  | .standard position => category == position

namespace Variants

section Selection

variable (number : Binary64) (locale : String) (strategy : Strategy)

/-- A category that is remembered is the one that would be asked for. -/
theorem find_text (variants : List Variant) :
    ∀ (known : Option Nat) (asked : List (Int64 × String)),
      (∀ category ∈ known, category = strategy number.truncate locale) →
      (find number locale strategy known asked variants).text =
        (variants.find? (Variant.applies number (strategy number.truncate locale))).map
          Variant.text := by
  induction variants with
  | nil => exact fun _ _ _ => rfl
  | cons v variants ih =>
      intro known asked hknown
      obtain ⟨kind, text⟩ := v
      rw [find, List.find?_cons]
      cases kind with
      | explicit condition =>
          have happlies : Variant.applies number (strategy number.truncate locale)
            ⟨.explicit condition, text⟩ = condition.holds number := rfl
          rw [happlies]
          cases hholds : condition.holds number with
          | true => simp [hholds]
          | false => simpa [hholds] using ih known asked hknown
      | standard position =>
          have happlies : Variant.applies number (strategy number.truncate locale)
            ⟨.standard position, text⟩ = (strategy number.truncate locale == position) := rfl
          rw [happlies]
          cases known with
          | some category =>
              obtain rfl := hknown category rfl
              by_cases h : strategy number.truncate locale = position
              · simp [h]
              · simpa [h, beq_eq_false_iff_ne.mpr h] using ih _ asked hknown
          | none =>
              by_cases h : strategy number.truncate locale = position
              · simp [h]
              · simpa [h, beq_eq_false_iff_ne.mpr h] using
                  ih (some _) _ fun _ heq => (Option.some.inj heq).symm

theorem select_text (variants : Variants) :
    (variants.select number locale strategy).text =
      (variants.toList.find? (Variant.applies number (strategy number.truncate locale))).map
        Variant.text :=
  find_text number locale strategy variants.toList none [] fun _ h => nomatch h

end Selection

/-! ## Fragments -/

variable {template : String}

theorem separator_not_mem_of_mem_fragments {fragment : List Char}
    (h : fragment ∈ fragments template) : variantSeparator ∉ fragment :=
  Text.separator_not_mem_split h

theorem exists_fragment_of_mem {v : Variant} (h : v ∈ (ofTemplate template).toList) :
    ∃ fragment ∈ fragments template, v.text.toList <:+ fragment := by
  rcases List.mem_append.mp h with hexplicit | hstandard
  · obtain ⟨fragment, hfragment, hv⟩ := List.mem_filterMap.mp hexplicit
    unfold explicit? at hv
    split at hv
    · rename_i hread
      obtain rfl := Option.some.inj hv
      refine ⟨fragment, hfragment, ?_⟩
      rw [String.toList_ofList]
      exact Condition.suffix_of_read hread
    · cases hv
  · obtain ⟨⟨fragment, position⟩, hmem, rfl⟩ := List.mem_map.mp hstandard
    refine ⟨fragment, (List.mem_filter.mp (List.fst_mem_of_mem_zipIdx hmem)).1, ?_⟩
    rw [String.toList_ofList]

/-- The text of a variant ends a fragment, so it has no separator in it. -/
theorem separator_not_mem_text {v : Variant} (h : v ∈ (ofTemplate template).toList) :
    variantSeparator ∉ v.text.toList := by
  obtain ⟨fragment, hfragment, hsuffix⟩ := exists_fragment_of_mem h
  exact fun hmem => separator_not_mem_of_mem_fragments hfragment (hsuffix.subset hmem)

end Variants

namespace Messages

def appliedVariant? (text : String) (number : Option Binary64) (locale : String)
    (strategy : Strategy) : Option Variant :=
  number.bind fun number =>
    if '|' ∈ text.toList then
      (Variants.ofTemplate text).toList.find?
        (Variant.applies number (strategy number.truncate locale))
    else none

theorem appliedVariant?_eq_some_iff {text : String} {number : Option Binary64} {locale : String}
    {strategy : Strategy} {v : Variant} :
    appliedVariant? text number locale strategy = some v ↔
      ∃ x, number = some x ∧ '|' ∈ text.toList ∧
        (Variants.ofTemplate text).toList.find?
          (Variant.applies x (strategy x.truncate locale)) = some v := by
  simp only [appliedVariant?, Option.bind_eq_some_iff, Option.ite_none_right_eq_some]

theorem choose_text (text : String) (number : Option Binary64) (locale : String)
    (strategy : Strategy) :
    (choose text number locale strategy).text =
      some (((appliedVariant? text number locale strategy).map Variant.text).getD text) := by
  cases number with
  | none => rfl
  | some number =>
      rw [choose, appliedVariant?, Option.bind_some]
      by_cases h : '|' ∈ text.toList
      · rw [if_pos h, if_pos h, ← Variants.select_text]
      · rw [if_neg h, if_neg h]
        rfl

/-- A message is there for a number exactly if it is there at all. It is then all of its text or
one of its variants, none of which has a separator in it: the first variant that applies, if the
text has more than one fragment, and all of the text if there is no number or no such variant. -/
theorem get_ofCatalog_text (c : Catalog) (key : String) (number : Option Binary64)
    (locale : String) (strategy : Strategy) :
    let chosen := ((ofCatalog c).get key number locale strategy).text
    (chosen.isSome ↔ ((ofCatalog c).text? key).isSome) ∧
    ∀ message, (ofCatalog c).text? key = some message →
      let variants := (Variants.ofTemplate message).toList
      (∀ v ∈ variants, '|' ∉ v.text.toList) ∧
      (chosen = some message ∨ ∃ v ∈ variants, chosen = some v.text) ∧
      (number = none ∨ '|' ∉ message.toList ∨
        (∀ x ∈ number, ∀ v ∈ variants, v.applies x (strategy x.truncate locale) = false) →
        chosen = some message) ∧
      ∀ x ∈ number, '|' ∈ message.toList →
        ∀ v, variants.find? (Variant.applies x (strategy x.truncate locale)) = some v →
          chosen = some v.text := by
  have hget := congrArg Variants.Selection.text (get_ofCatalog c key number locale strategy)
  cases hmessage : (ofCatalog c).text? key with
  | none =>
      rw [hmessage] at hget
      simp [hget]
  | some message =>
      simp only [hmessage, choose_text] at hget
      simp only [hget, Option.isSome_some, Option.some.injEq, true_and]
      rintro _ rfl
      refine ⟨fun v hv => Variants.separator_not_mem_text hv, ?_, ?_, ?_⟩
      · cases happlied : appliedVariant? message number locale strategy with
        | none => exact Or.inl rfl
        | some v =>
            obtain ⟨_, -, -, hfind⟩ := appliedVariant?_eq_some_iff.mp happlied
            exact Or.inr ⟨v, List.mem_of_find?_eq_some hfind, rfl⟩
      · intro hnone
        cases happlied : appliedVariant? message number locale strategy with
        | none => rfl
        | some v =>
            obtain ⟨x, rfl, hbar, hfind⟩ := appliedVariant?_eq_some_iff.mp happlied
            rcases hnone with h | h | h
            · cases h
            · exact absurd hbar h
            · have happlies := List.find?_some hfind
              rw [h x rfl v (List.mem_of_find?_eq_some hfind)] at happlies
              cases happlies
      · intro x hx hbar v hv
        rw [appliedVariant?_eq_some_iff.mpr ⟨x, hx, hbar, hv⟩]
        rfl

/-- A category that no variant has. -/
example :
    let m := ofCatalog (.ofList [("files", .text "file|files|{0}none")])
    (m.get "files" (some .zero) "en" fun _ _ => 7).text = some "none" ∧
      (m.get "files" (some .infinity) "en" fun _ _ => 7).text = some "file|files|{0}none" := by
  decide +kernel

end Messages

end Phrasebook
