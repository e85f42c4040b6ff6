/-!
# Splitting text

Cutting a text at every separator, and cutting it once at the first one.
-/

namespace Phrasebook.Text

/-- The pieces between separators; a text without a separator is one piece. -/
def split (separator : Char) : List Char → List (List Char)
  | [] => [[]]
  | c :: rest =>
    if c = separator then [] :: split separator rest
    else
      match split separator rest with
      | [] => [[c]]
      | piece :: pieces => (c :: piece) :: pieces

/-- The texts before and after the first separator. -/
def splitOnce (separator : Char) : List Char → Option (List Char × List Char)
  | [] => none
  | c :: rest =>
    if c = separator then some ([], rest)
    else (splitOnce separator rest).map fun (before, after) => (c :: before, after)

theorem split_ne_nil (separator : Char) (s : List Char) : split separator s ≠ [] := by
  cases s with
  | nil => simp [split]
  | cons c rest =>
      simp only [split]
      split
      · simp
      · split <;> simp

theorem separator_not_mem_split {separator : Char} {s piece : List Char}
    (h : piece ∈ split separator s) : separator ∉ piece := by
  induction s generalizing piece with
  | nil => simp_all [split]
  | cons c rest ih =>
      simp only [split] at h
      split at h
      · rcases List.mem_cons.mp h with rfl | h
        · simp
        · exact ih h
      · rename_i hc
        split at h
        · rename_i hnil
          exact absurd hnil (split_ne_nil separator rest)
        · rename_i first others heq
          rcases List.mem_cons.mp h with rfl | h
          · have : separator ∉ first := ih (by simp [heq])
            simp only [List.mem_cons, not_or]
            exact ⟨fun e => hc e.symm, this⟩
          · exact ih (by simp [heq, h])

theorem eq_append_of_splitOnce {separator : Char} {s before after : List Char}
    (h : splitOnce separator s = some (before, after)) :
    s = before ++ separator :: after ∧ separator ∉ before := by
  induction s generalizing before with
  | nil => simp [splitOnce] at h
  | cons c rest ih =>
      simp only [splitOnce] at h
      split at h
      · simp_all
      · rename_i hc
        obtain ⟨⟨b, a⟩, hb, he⟩ := Option.map_eq_some_iff.mp h
        simp only [Prod.mk.injEq] at he
        obtain ⟨rfl, rfl⟩ := he
        obtain ⟨hr, hn⟩ := ih hb
        simp only [hr, List.cons_append, List.mem_cons, not_or, true_and]
        exact ⟨fun e => hc e.symm, hn⟩

theorem splitOnce_eq_none_iff {separator : Char} {s : List Char} :
    splitOnce separator s = none ↔ separator ∉ s := by
  induction s with
  | nil => simp [splitOnce]
  | cons c rest ih =>
      simp only [splitOnce, List.mem_cons, not_or]
      split
      · rename_i hc
        simp [hc]
      · rename_i hc
        rw [Option.map_eq_none_iff, ih]
        exact ⟨fun h => ⟨fun e => hc e.symm, h⟩, fun h => h.2⟩

end Phrasebook.Text
