import Phrasebook.Proofs.MessageVariants

/-!
# Final texts

Two texts of a catalog can have the same dotted key. The later one is the text of the message, and
its variants are the only ones the message has: those of the text before it are never chosen from.
-/

namespace Phrasebook

namespace Entries

variable {α : Type}

theorem lookup_reverse_eq_some_iff {pairs : List (String × α)} {key : String} {value : α} :
    pairs.reverse.lookup key = some value ↔
      ∃ earlier later, pairs = earlier ++ (key, value) :: later ∧ key ∉ later.map Prod.fst := by
  rw [List.lookup_eq_some_iff]
  constructor
  · rintro ⟨before, after, hpairs, hbefore⟩
    refine ⟨after.reverse, before.reverse, ?_, ?_⟩
    · rw [← List.reverse_reverse pairs, hpairs]
      simp
    · intro hmem
      obtain ⟨pair, hpair, hkey⟩ := List.mem_map.mp hmem
      have hne := hbefore pair (List.mem_reverse.mp hpair)
      simp [hkey] at hne
  · rintro ⟨earlier, later, rfl, hlater⟩
    refine ⟨later.reverse, earlier.reverse, by simp, fun pair hpair => ?_⟩
    apply bne_iff_ne.mpr
    rintro rfl
    exact hlater (List.mem_map_of_mem (List.mem_reverse.mp hpair))

theorem lookup_reverse_eq_none_iff {pairs : List (String × α)} {key : String} :
    pairs.reverse.lookup key = none ↔ key ∉ pairs.map Prod.fst := by
  rw [List.lookup_eq_none_iff]
  constructor
  · intro h hmem
    obtain ⟨pair, hpair, hkey⟩ := List.mem_map.mp hmem
    have hne := h pair (List.mem_reverse.mpr hpair)
    simp [hkey] at hne
  · intro h pair hpair
    apply bne_iff_ne.mpr
    rintro rfl
    exact h (List.mem_map_of_mem (List.mem_reverse.mp hpair))

end Entries

namespace Messages

open Number

theorem hasVariants_iff (text : String) : hasVariants text = true ↔ '|' ∈ text.toList := by
  rw [hasVariants, List.contains_iff_mem]
  rfl

/-- What a text alone gives for a number: a variant if it has one that applies, else all of it. -/
def choose (text : String) (number : Option Binary64) (locale : String) (strategy : Strategy) :
    Variants.Selection :=
  match number with
  | none => ⟨some text, []⟩
  | some number =>
    if '|' ∈ text.toList then
      let selection := (Variants.ofTemplate text).select number locale strategy
      ⟨some (selection.text.getD text), selection.asked⟩
    else ⟨some text, []⟩

theorem length_ofCatalog (c : Catalog) :
    (ofCatalog c).length = (c.flatten.map Prod.fst).toFinset.card := by
  calc (ofCatalog c).length = (Entries.setAll [] c.flatten).keys.length := by
        rw [Entries.keys, List.length_map]
        rfl
    _ = (c.flatten.map Prod.fst).eraseDups.length := by
        rw [Entries.keys_setAll Entries.nodup_keys_nil]
        rfl
    _ = (c.flatten.map Prod.fst).toFinset.card := length_eraseDups _

theorem variants?_eq_bind (c : Catalog) (key : String) :
    (ofCatalog c).variants? key = ((ofCatalog c).text? key).bind fun text =>
      if '|' ∈ text.toList then some (.ofTemplate text) else none := by
  rw [variants?_ofCatalog]
  cases (ofCatalog c).text? key with
  | none => rfl
  | some text =>
      rw [Option.filter_some, Option.bind_some]
      by_cases h : '|' ∈ text.toList
      · rw [if_pos ((hasVariants_iff text).mpr h), if_pos h]
        rfl
      · rw [if_neg (mt (hasVariants_iff text).mp h), if_neg h]
        rfl

theorem get_ofCatalog (c : Catalog) (key : String) (number : Option Binary64) (locale : String)
    (strategy : Strategy) :
    (ofCatalog c).get key number locale strategy =
      match (ofCatalog c).text? key with
      | some text => choose text number locale strategy
      | none => ⟨none, []⟩ := by
  have hvariants := variants?_eq_bind c key
  cases htext : (ofCatalog c).text? key with
  | none =>
      rw [htext, Option.bind_none] at hvariants
      cases number <;> simp [get, hvariants, htext]
  | some text =>
      rw [htext, Option.bind_some] at hvariants
      cases number with
      | none => simp [get, choose, htext]
      | some number =>
          by_cases h : '|' ∈ text.toList
          · rw [if_pos h] at hvariants
            simp only [get, choose, hvariants, htext, if_pos h]
            cases ((Variants.ofTemplate text).select number locale strategy).text <;> rfl
          · rw [if_neg h] at hvariants
            simp only [get, choose, hvariants, htext, if_neg h]

/-- A message has the last of the texts with its dotted key and the variants of that text, which
alone decides on what the message is for a number. There is one message for each dotted key. -/
theorem ofCatalog_final_texts (c : Catalog) (key : String) :
    (∀ text, (ofCatalog c).text? key = some text ↔
      ∃ earlier later, c.flatten = earlier ++ (key, text) :: later ∧
        key ∉ later.map Prod.fst) ∧
    ((ofCatalog c).text? key = none ↔ key ∉ c.flatten.map Prod.fst) ∧
    ((ofCatalog c).variants? key = ((ofCatalog c).text? key).bind fun text =>
      if '|' ∈ text.toList then some (.ofTemplate text) else none) ∧
    (ofCatalog c).length = (c.flatten.map Prod.fst).toFinset.card ∧
    ∀ number locale strategy, (ofCatalog c).get key number locale strategy =
      match (ofCatalog c).text? key with
      | some text => choose text number locale strategy
      | none => ⟨none, []⟩ := by
  refine ⟨fun text => ?_, ?_, variants?_eq_bind c key, length_ofCatalog c, get_ofCatalog c key⟩
  · rw [text?_ofCatalog, Entries.lookup_reverse_eq_some_iff]
  · rw [text?_ofCatalog, Entries.lookup_reverse_eq_none_iff]

/-- A plain text in a group over one with variants. -/
example :
    let m := ofCatalog (.ofList [("a.b", .text "one|many"), ("a", .group [("b", .text "plain")])])
    m.text? "a.b" = some "plain" ∧ (m.variants? "a.b").isNone ∧ m.length = 1 := by
  decide +kernel

end Messages

end Phrasebook
