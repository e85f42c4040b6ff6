import Phrasebook.Proofs.OverlaidEntries
import Phrasebook.Proofs.Runs

/-!
# Messages and their variants

The variants of a message are those of its text: a text has variants exactly if it has more than
one fragment.
-/

namespace Phrasebook

namespace Text

theorem length_split_cons (separator c : Char) (s : List Char) :
    (split separator (c :: s)).length =
      (split separator s).length + if c = separator then 1 else 0 := by
  rw [split]
  split
  · rfl
  · cases hrest : split separator s with
    | nil => exact absurd hrest (split_ne_nil separator s)
    | cons piece pieces => rfl

theorem length_split (separator : Char) (s : List Char) :
    (split separator s).length = s.count separator + 1 := by
  induction s with
  | nil => rfl
  | cons c s ih =>
      rw [length_split_cons, ih, List.count_cons]
      simp only [beq_iff_eq]
      omega

end Text

namespace Messages

theorem two_le_length_fragments_iff (text : String) :
    2 ≤ (Variants.fragments text).length ↔ hasVariants text = true := by
  rw [Variants.fragments, Text.length_split, hasVariants, List.contains_iff_mem,
    ← List.count_pos_iff]
  omega

theorem get?_variantsOf {texts : Entries String} (h : texts.keys.Nodup) (key : String) :
    Entries.get? key (variantsOf texts) =
      ((texts.get? key).filter hasVariants).map Variants.ofTemplate := by
  induction texts with
  | nil => rfl
  | cons entry rest ih =>
      obtain ⟨k, text⟩ := entry
      obtain ⟨habsent, hrest⟩ := List.nodup_cons.mp h
      have ih := ih hrest
      have hnone : Entries.get? k rest = none := Entries.get?_eq_none_of_not_mem habsent
      rw [Entries.get?_cons]
      -- A text without variants leaves no entry, so the rest must not have one for its key.
      by_cases hvariants : hasVariants text = true
      · have hhead : variantsOf ((k, text) :: rest) =
            (k, Variants.ofTemplate text) :: variantsOf rest := by
          simp [variantsOf, hvariants]
        rw [hhead, Entries.get?_cons]
        by_cases hkey : key = k
        · rw [if_pos hkey, if_pos hkey, Option.filter_some, if_pos hvariants]
          rfl
        · rw [if_neg hkey, if_neg hkey, ih]
      · have htail : variantsOf ((k, text) :: rest) = variantsOf rest := by
          simp [variantsOf, hvariants]
        rw [htail, ih]
        by_cases hkey : key = k
        · rw [if_pos hkey, Option.filter_some, if_neg hvariants, hkey, hnone]
          rfl
        · rw [if_neg hkey]

theorem text?_ofCatalog (c : Catalog) (key : String) :
    (ofCatalog c).text? key = c.flatten.reverse.lookup key := by
  rw [text?, texts_ofCatalog, Entries.get?_setAll]
  simp [Entries.get?]

theorem variants?_ofCatalog (c : Catalog) (key : String) :
    (ofCatalog c).variants? key =
      (((ofCatalog c).text? key).filter hasVariants).map Variants.ofTemplate :=
  get?_variantsOf (ofCatalog c).nodup_keys key

end Messages

namespace Snapshots

variable {σ : Type}

def FromCatalogs (s : Snapshots) : Prop :=
  ∀ (pair : String × String) (found : Messages),
    s.messages? pair.1 pair.2 = some found → ∃ c, found = .ofCatalog c

theorem FromCatalogs.empty : FromCatalogs .empty := by
  intro pair found hfound
  have hnone : Snapshots.empty.messages? pair.1 pair.2 = none := rfl
  rw [hnone] at hfound
  cases hfound

theorem ofLoad_eq_ofCatalog (result : Except LoadError Catalog) :
    ∃ c, ofLoad result = .ofCatalog c := by
  cases result with
  | ok c => exact ⟨c, rfl⟩
  | error e => exact ⟨.empty, rfl⟩

theorem FromCatalogs.request {loader : Loader σ} {s : Snapshots} (h : FromCatalogs s)
    (pair : String × String) (state : σ) :
    (∃ c, (messages loader pair.1 pair.2 s state).1 = .ofCatalog c) ∧
      FromCatalogs (messages loader pair.1 pair.2 s state).2.1 := by
  cases hloaded : s.messages? pair.1 pair.2 with
  | some found =>
      rw [messages_of_loaded state hloaded]
      exact ⟨h pair found hloaded, h⟩
  | none =>
      cases hload : loader pair.1 pair.2 state with
      | mk result state' =>
          rw [messages_of_not_loaded hloaded hload]
          refine ⟨ofLoad_eq_ofCatalog result, ?_⟩
          intro other found hfound
          dsimp only at hfound
          rw [messages?_insert] at hfound
          split at hfound
          · obtain rfl := Option.some.inj hfound
            exact ofLoad_eq_ofCatalog result
          · exact h other found hfound

theorem fromCatalogs_requestAll (loader : Loader σ) (pairs : List (String × String))
    (start : σ) : FromCatalogs (requestAll loader pairs (.empty, start)).1 := by
  apply requestAll_induction (fun _ state => FromCatalogs state.1) FromCatalogs.empty
  intro _ pair _ _ state h
  exact (h.request pair state.2).2

end Snapshots

end Phrasebook
