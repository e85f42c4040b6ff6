import Mathlib.Data.Finset.Dedup
import Mathlib.Data.Finset.Erase
import Mathlib.Data.Finset.Insert
import Phrasebook.Substitution

/-!
# Cutting a template

There is one way to cut a template into tokens and single characters so that every piece is the
longest token that starts there, if any does. Substitution fills in the values piece by piece,
so the cut is the same whatever the values are.
-/

namespace Phrasebook.Substitution

def Segment.source : Segment → List Char
  | literal c => [c]
  | token t => t

def Segment.fill (value : String → String) : Segment → List Char
  | literal c => [c]
  | token t => (value (String.ofList t)).toList

/-- A segment is a token exactly if a token starts where it does, and then it is the longest. -/
structure IsLongest (tokens : Finset String) (segment : Segment) (after : List Segment) :
    Prop where
  isToken_iff : (∃ t, segment = .token t) ↔
    ∃ u ∈ tokens, u.toList <+: (segment :: after).flatMap Segment.source
  length_le : ∀ t, segment = .token t →
    ∀ u ∈ tokens, u.toList <+: (segment :: after).flatMap Segment.source →
      u.toList.length ≤ t.length

/-- A list of segments cuts a text into single characters and tokens of a set, and every segment
is the longest one there. -/
structure IsCut (tokens : Finset String) (text : List Char) (segments : List Segment) : Prop where
  token_mem : ∀ t, .token t ∈ segments → String.ofList t ∈ tokens
  source_eq : segments.flatMap Segment.source = text
  isLongest : ∀ before segment after, segments = before ++ segment :: after →
    IsLongest tokens segment after

/-- The entries of a map, in any order, that give the tokens of a set their values. There may be
a value for the empty token too. -/
def Assigns (tokens : Finset String) (value : String → String) (entries : Replacements) : Prop :=
  ∀ token text, token ≠ "" → ((token, text) ∈ entries ↔ token ∈ tokens ∧ text = value token)

/-- Entries of which the last one of each token of a set gives it its value. Other tokens have no
entries, except perhaps the empty one. -/
def LastAssigns (tokens : Finset String) (value : String → String) (entries : Replacements) :
    Prop :=
  ∀ token, token ≠ "" →
    entries.reverse.lookup token = if token ∈ tokens then some (value token) else none

/-! ## The longest token -/

theorem foldr_longer_eq_none {tokens : List (List Char)} (h : tokens.foldr longer none = none) :
    tokens = [] := by
  cases tokens with
  | nil => rfl
  | cons t tokens =>
      rw [List.foldr_cons, longer.eq_def] at h
      split at h
      · cases h
      · split at h <;> cases h

theorem foldr_longer_eq_some {tokens : List (List Char)} {t : List Char}
    (h : tokens.foldr longer none = some t) :
    t ∈ tokens ∧ ∀ u ∈ tokens, u.length ≤ t.length := by
  induction tokens generalizing t with
  | nil => cases h
  | cons first tokens ih =>
      rw [List.foldr_cons] at h
      cases hrest : tokens.foldr longer none with
      | none =>
          rw [hrest] at h
          cases h
          simp [foldr_longer_eq_none hrest]
      | some u =>
          obtain ⟨hmem, hmax⟩ := ih hrest
          rw [hrest, longer] at h
          split at h <;> cases h
          · rename_i hlt
            refine ⟨List.mem_cons_self, fun v hv => ?_⟩
            rcases List.mem_cons.mp hv with rfl | hv
            · exact Nat.le_refl _
            · exact Nat.le_of_lt (Nat.lt_of_le_of_lt (hmax v hv) hlt)
          · rename_i hge
            refine ⟨List.mem_cons_of_mem _ hmem, fun v hv => ?_⟩
            rcases List.mem_cons.mp hv with rfl | hv
            · exact Nat.le_of_not_lt hge
            · exact hmax v hv

theorem not_prefix_of_longest_eq_none {tokens : List (List Char)} {text u : List Char}
    (h : longest tokens text = none) (hu : u ∈ tokens) (hne : u ≠ []) : ¬ u <+: text := by
  intro hstart
  have hempty := foldr_longer_eq_none h
  have hmem : u ∈ tokens.filter fun t => !t.isEmpty && t.isPrefixOf text := by
    simp [hu, hne, hstart]
  rw [hempty] at hmem
  cases hmem

theorem longest_eq_some {tokens : List (List Char)} {text t : List Char}
    (h : longest tokens text = some t) :
    t ∈ tokens ∧ t ≠ [] ∧ t <+: text ∧
      ∀ u ∈ tokens, u ≠ [] → u <+: text → u.length ≤ t.length := by
  obtain ⟨hmem, hmax⟩ := foldr_longer_eq_some h
  simp only [List.mem_filter, Bool.and_eq_true, Bool.not_eq_true', List.isEmpty_eq_false_iff,
    List.isPrefixOf_iff_prefix] at hmem hmax
  exact ⟨hmem.1, hmem.2.1, hmem.2.2, fun u hu hne hstart => hmax u ⟨hu, hne, hstart⟩⟩

/-! ## Cuts -/

variable {tokens : Finset String}

theorem IsCut.nil (tokens : Finset String) : IsCut tokens [] [] where
  token_mem t h := absurd h List.not_mem_nil
  source_eq := rfl
  isLongest before segment after h := by simp at h

theorem IsCut.cons {text : List Char} {segment : Segment} {segments : List Segment}
    (h : IsCut tokens text segments) (hmem : ∀ t, segment = .token t → String.ofList t ∈ tokens)
    (hlongest : IsLongest tokens segment segments) :
    IsCut tokens (segment.source ++ text) (segment :: segments) where
  token_mem t ht := by
    rcases List.mem_cons.mp ht with heq | ht
    · exact hmem t heq.symm
    · exact h.token_mem t ht
  source_eq := by rw [List.flatMap_cons, h.source_eq]
  isLongest before other after hsplit := by
    cases before with
    | nil =>
        simp only [List.nil_append, List.cons.injEq] at hsplit
        obtain ⟨rfl, rfl⟩ := hsplit
        exact hlongest
    | cons first before =>
        simp only [List.cons_append, List.cons.injEq] at hsplit
        exact h.isLongest before other after hsplit.2

theorem IsCut.tail {text : List Char} {segment : Segment} {segments : List Segment}
    (h : IsCut tokens text (segment :: segments)) :
    IsCut tokens (segments.flatMap Segment.source) segments where
  token_mem t ht := h.token_mem t (List.mem_cons_of_mem _ ht)
  source_eq := rfl
  isLongest before s after hsplit := h.isLongest (segment :: before) s after (by simp [hsplit])

theorem IsCut.source_ne_nil {text : List Char} {segment : Segment} {segments : List Segment}
    (h : IsCut tokens text (segment :: segments)) (hempty : "" ∉ tokens) :
    segment.source ≠ [] := by
  cases segment with
  | literal c => exact List.cons_ne_nil _ _
  | token t =>
      rintro rfl
      exact hempty (h.token_mem [] List.mem_cons_self)

theorem IsCut.head_eq {text : List Char} {segment other : Segment}
    {segments others : List Segment} (h : IsCut tokens text (segment :: segments))
    (h' : IsCut tokens text (other :: others)) : segment = other := by
  have hlongest := h.isLongest [] segment segments rfl
  have hlongest' := h'.isLongest [] other others rfl
  have hsame : (∃ t, segment = .token t) ↔ ∃ t, other = .token t := by
    rw [hlongest.isToken_iff, hlongest'.isToken_iff, h.source_eq, h'.source_eq]
  have hsource := h.source_eq.trans h'.source_eq.symm
  rw [List.flatMap_cons, List.flatMap_cons] at hsource
  cases segment with
  | literal c =>
      cases other with
      | literal d =>
          simp only [Segment.source, List.cons_append, List.cons.injEq] at hsource
          rw [hsource.1]
      | token t =>
          obtain ⟨u, hu⟩ := hsame.mpr ⟨t, rfl⟩
          cases hu
  | token t =>
      obtain ⟨u, rfl⟩ := hsame.mp ⟨t, rfl⟩
      -- Both tokens start the same text and neither is longer than the other.
      have htext : t <+: text := ⟨_, h.source_eq⟩
      have hutext : u <+: text := ⟨_, h'.source_eq⟩
      have hle := hlongest'.length_le u rfl (String.ofList t) (h.token_mem t List.mem_cons_self)
        (by rwa [h'.source_eq, String.toList_ofList])
      have hge := hlongest.length_le t rfl (String.ofList u) (h'.token_mem u List.mem_cons_self)
        (by rwa [h.source_eq, String.toList_ofList])
      rw [String.toList_ofList] at hle hge
      have hstart := List.prefix_of_prefix_length_le htext hutext hle
      rw [hstart.eq_of_length (Nat.le_antisymm hle hge)]

theorem IsCut.unique (hempty : "" ∉ tokens) {text : List Char} {segments others : List Segment}
    (h : IsCut tokens text segments) (h' : IsCut tokens text others) : segments = others := by
  induction segments generalizing text others with
  | nil =>
      cases others with
      | nil => rfl
      | cons other others =>
          have hsource := h'.source_eq.trans h.source_eq.symm
          rw [List.flatMap_cons, List.flatMap_nil, List.append_eq_nil_iff] at hsource
          exact absurd hsource.1 (h'.source_ne_nil hempty)
  | cons segment segments ih =>
      cases others with
      | nil =>
          have hsource := h.source_eq.trans h'.source_eq.symm
          rw [List.flatMap_cons, List.flatMap_nil, List.append_eq_nil_iff] at hsource
          exact absurd hsource.1 (h.source_ne_nil hempty)
      | cons other others =>
          obtain rfl := h.head_eq h'
          have hsource := h.source_eq.trans h'.source_eq.symm
          rw [List.flatMap_cons, List.flatMap_cons, List.append_cancel_left_eq] at hsource
          rw [ih h.tail (hsource ▸ h'.tail)]

/-! ## The cut of a template -/

/-- Cutting with a list that holds the tokens of a set, and perhaps the empty one, is cutting
with the set. -/
theorem isCut_segments {entries : List (List Char)} (hempty : "" ∉ tokens)
    (hentries : ∀ u, u ≠ [] → (u ∈ entries ↔ String.ofList u ∈ tokens)) (text : List Char) :
    IsCut tokens text (segments entries text) := by
  have hne : ∀ u ∈ tokens, u.toList ≠ [] := by
    intro u hu hnil
    exact hempty ((String.toList_eq_nil_iff.mp hnil) ▸ hu)
  have hmem : ∀ u ∈ tokens, u.toList ∈ entries := by
    intro u hu
    rw [hentries _ (hne u hu), String.ofList_toList]
    exact hu
  -- The cases are those of the segmentation: the end, no token here, or the longest one.
  induction text using segments.induct entries with
  | case1 =>
      rw [segments]
      exact IsCut.nil tokens
  | case2 c rest hlongest ih =>
      rw [segments, hlongest]
      show IsCut tokens (Segment.source (.literal c) ++ rest) (.literal c :: segments entries rest)
      refine IsCut.cons ih nofun ⟨⟨nofun, ?_⟩, nofun⟩
      rintro ⟨u, hu, hstart⟩
      rw [List.flatMap_cons, ih.source_eq] at hstart
      exact absurd hstart (not_prefix_of_longest_eq_none hlongest (hmem u hu) (hne u hu))
  | case3 c rest t hlongest ih =>
      obtain ⟨ht, htne, htprefix, hmax⟩ := longest_eq_some hlongest
      have htmem := (hentries t htne).mp ht
      have hsplit : t ++ rest.drop (t.length - 1) = c :: rest := by
        obtain ⟨first, t, rfl⟩ := List.exists_cons_of_ne_nil htne
        obtain ⟨after, hafter⟩ := htprefix
        simp only [List.cons_append, List.cons.injEq] at hafter
        obtain ⟨rfl, rfl⟩ := hafter
        simp
      rw [segments, hlongest, ← hsplit]
      show IsCut tokens (Segment.source (.token t) ++ rest.drop (t.length - 1))
        (.token t :: segments entries (rest.drop (t.length - 1)))
      refine IsCut.cons ih ?_ ⟨?_, ?_⟩
      · rintro _ ⟨⟩
        exact htmem
      · refine ⟨fun _ => ⟨_, htmem, ?_⟩, fun _ => ⟨t, rfl⟩⟩
        rw [String.toList_ofList]
        exact List.prefix_append _ _
      · rintro _ ⟨⟩ u hu hstart
        rw [List.flatMap_cons, ih.source_eq, Segment.source, hsplit] at hstart
        exact hmax _ (hmem u hu) (hne u hu) hstart

/-! ## Filling in the values -/

theorem Assigns.last {value : String → String} {entries : Replacements}
    (h : Assigns tokens value entries) : LastAssigns tokens value entries := by
  intro token hne
  cases hlookup : entries.reverse.lookup token with
  | none =>
      refine (if_neg fun htoken => ?_).symm
      have hmem : (token, value token) ∈ entries.reverse :=
        List.mem_reverse.mpr ((h token _ hne).mpr ⟨htoken, rfl⟩)
      have hkey := List.lookup_eq_none_iff.mp hlookup _ hmem
      simp at hkey
  | some text =>
      obtain ⟨before, after, hentries, _⟩ := List.lookup_eq_some_iff.mp hlookup
      have hmem : (token, text) ∈ entries.reverse := by simp [hentries]
      obtain ⟨htoken, rfl⟩ := (h token text hne).mp (List.mem_reverse.mp hmem)
      rw [if_pos htoken]

theorem LastAssigns.mem_tokens_iff {value : String → String} {entries : Replacements}
    (h : LastAssigns tokens value entries) {token : String} (hne : token ≠ "") :
    token ∈ tokens ↔ ∃ text, (token, text) ∈ entries := by
  constructor
  · intro htoken
    obtain ⟨before, after, hentries, _⟩ :=
      List.lookup_eq_some_iff.mp ((h token hne).trans (if_pos htoken))
    exact ⟨value token, List.mem_reverse.mp (by simp [hentries])⟩
  · rintro ⟨text, hmem⟩
    by_contra htoken
    have hkey := List.lookup_eq_none_iff.mp ((h token hne).trans (if_neg htoken)) _
      (List.mem_reverse.mpr hmem)
    simp at hkey

theorem LastAssigns.render {value : String → String} {entries : Replacements}
    (h : LastAssigns tokens value entries) (hempty : "" ∉ tokens) {text : List Char}
    {segments : List Segment} (hcut : IsCut tokens text segments) :
    segments.flatMap (Segment.render entries) = segments.flatMap (Segment.fill value) := by
  apply List.flatMap_congr
  intro segment hsegment
  cases segment with
  | literal c => rfl
  | token t =>
      have ht := hcut.token_mem t hsegment
      have hne : String.ofList t ≠ "" := fun heq => hempty (heq ▸ ht)
      rw [Segment.render, Substitution.value, h _ hne, if_pos ht]
      rfl

theorem lastAssigns_self (entries : Replacements) :
    LastAssigns ((entries.map Prod.fst).toFinset.erase "")
      (fun token => (entries.reverse.lookup token).getD "") entries := by
  intro token hne
  cases hlookup : entries.reverse.lookup token with
  | none =>
      refine (if_neg fun htoken => ?_).symm
      obtain ⟨entry, hentry, rfl⟩ :=
        List.mem_map.mp (List.mem_toFinset.mp (Finset.mem_of_mem_erase htoken))
      have hkey := List.lookup_eq_none_iff.mp hlookup _ (List.mem_reverse.mpr hentry)
      simp at hkey
  | some text =>
      obtain ⟨before, after, hentries, _⟩ := List.lookup_eq_some_iff.mp hlookup
      have hmem : (token, text) ∈ entries := List.mem_reverse.mp (by simp [hentries])
      have htoken : token ∈ (entries.map Prod.fst).toFinset.erase "" :=
        Finset.mem_erase.mpr ⟨hne, List.mem_toFinset.mpr (List.mem_map.mpr ⟨_, hmem, rfl⟩)⟩
      simp only [if_pos htoken, hlookup, Option.getD_some]

theorem LastAssigns.isCut {value : String → String} {entries : Replacements}
    (h : LastAssigns tokens value entries) (hempty : "" ∉ tokens) (text : List Char) :
    IsCut tokens text (segments (entries.map fun entry => entry.1.toList) text) := by
  apply isCut_segments hempty
  intro u hu
  have hne : String.ofList u ≠ "" := fun heq => hu (by simpa using congrArg String.toList heq)
  rw [h.mem_tokens_iff hne, List.mem_map]
  constructor
  · rintro ⟨⟨token, text⟩, hmem, rfl⟩
    rw [String.ofList_toList]
    exact ⟨text, hmem⟩
  · rintro ⟨text, hmem⟩
    exact ⟨_, hmem, String.toList_ofList⟩

theorem LastAssigns.substitute {value : String → String} {entries : Replacements}
    (h : LastAssigns tokens value entries) (hempty : "" ∉ tokens) {template : String}
    {segments : List Segment} (hcut : IsCut tokens template.toList segments) :
    substitute template entries = String.ofList (segments.flatMap (Segment.fill value)) := by
  have hsegments := (h.isCut hempty template.toList).unique hempty hcut
  rw [Substitution.substitute, ← h.render hempty hcut, ← hsegments]

theorem substitute_congr {entries others : Replacements}
    (h : ∀ token, token ≠ "" → entries.reverse.lookup token = others.reverse.lookup token)
    (template : String) : substitute template entries = substitute template others := by
  have hentries := lastAssigns_self entries
  have hothers : LastAssigns _ _ others := fun token hne =>
    (h token hne).symm.trans (hentries token hne)
  have hempty : "" ∉ (entries.map Prod.fst).toFinset.erase "" := Finset.notMem_erase "" _
  have hcut := hentries.isCut hempty template.toList
  rw [hentries.substitute hempty hcut, hothers.substitute hempty hcut]

theorem substitute_of_isCut {value : String → String} {entries : Replacements}
    (h : Assigns tokens value entries) (hempty : "" ∉ tokens) {template : String}
    {segments : List Segment} (hcut : IsCut tokens template.toList segments) :
    substitute template entries = String.ofList (segments.flatMap (Segment.fill value)) :=
  h.last.substitute hempty hcut

theorem flatMap_fill_of_fixed {value : String → String} (hfixed : ∀ t ∈ tokens, value t = t)
    {text : List Char} {segments : List Segment} (hcut : IsCut tokens text segments) :
    segments.flatMap (Segment.fill value) = text := by
  rw [← hcut.source_eq]
  apply List.flatMap_congr
  intro segment hsegment
  cases segment with
  | literal c => rfl
  | token t =>
      rw [Segment.fill, hfixed _ (hcut.token_mem t hsegment), String.toList_ofList]
      rfl

/-- A template has one cut into the tokens of a set, and substitution fills the values into it,
whatever they are and in whatever order the entries come. Values equal to their tokens give the
template back. -/
theorem substitute_eq_fill_unique_cut (tokens : Finset String) (hempty : "" ∉ tokens)
    (template : String) :
    ∃ segments, IsCut tokens template.toList segments ∧
      (∀ others, IsCut tokens template.toList others → others = segments) ∧
      ∀ (value : String → String) (entries : Replacements), Assigns tokens value entries →
        substitute template entries = String.ofList (segments.flatMap (Segment.fill value)) ∧
        ((∀ t ∈ tokens, value t = t) → substitute template entries = template) := by
  have hentries : ∀ u, u ≠ [] →
      (u ∈ tokens.toList.map String.toList ↔ String.ofList u ∈ tokens) := by
    intro u _
    rw [List.mem_map]
    constructor
    · rintro ⟨token, hmem, rfl⟩
      rw [String.ofList_toList]
      exact Finset.mem_toList.mp hmem
    · intro hu
      exact ⟨_, Finset.mem_toList.mpr hu, String.toList_ofList⟩
  have hcut := isCut_segments hempty hentries template.toList
  refine ⟨_, hcut, fun others hothers => hothers.unique hempty hcut, ?_⟩
  intro value entries h
  have hfill := substitute_of_isCut h hempty hcut
  refine ⟨hfill, fun hfixed => ?_⟩
  rw [hfill, flatMap_fill_of_fixed hfixed hcut, String.ofList_toList]

theorem substitute_eq_fill_unique_cut_name_names :
    let value := fun token => if token = ":name" then ":names" else "people"
    let entries := [("", "never"), (":name", ":names"), (":names", "people")]
    "" ∉ ({":name", ":names"} : Finset String) ∧ Assigns {":name", ":names"} value entries ∧
    ∃ segments, IsCut {":name", ":names"} ":name :names".toList segments ∧
      substitute ":name :names" entries =
        String.ofList (segments.flatMap (Segment.fill value)) := by
  intro value entries
  have hassigns : Assigns {":name", ":names"} value entries := by
    intro token text hne
    by_cases hname : token = ":name"
    · simp [entries, value, hname]
    · by_cases hnames : token = ":names" <;> simp [entries, value, hname, hnames, hne]
  obtain ⟨segments, hcut, -, hfill⟩ :=
    substitute_eq_fill_unique_cut {":name", ":names"} (by decide) ":name :names"
  exact ⟨by decide, hassigns, segments, hcut, (hfill value entries hassigns).1⟩

end Phrasebook.Substitution
