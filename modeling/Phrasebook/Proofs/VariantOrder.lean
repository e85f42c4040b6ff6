import Mathlib.Data.List.Forall2
import Mathlib.Data.List.Induction
import Phrasebook.Proofs.AppliedVariants

/-!
# The order of variants

Fragments are sorted one after the other into explicit and standard variants, and the standard ones
are numbered by how many of them there are already. So every fragment becomes one variant, each of
the two kinds keeps the order of the fragments, and the positions of the standard variants have no
gaps.
-/

namespace Phrasebook

theorem Condition.no_leading_blank_of_parse {fragment text : String} {c : Condition}
    (h : parse fragment = .ok (c, text)) : Text.HasNoLeadingBlank text.toList := by
  obtain ⟨s, -, htext⟩ := Split.exists_of_read ((parse_eq_ok_iff ..).mp h)
  rw [← htext]
  exact s.text_no_leading_blank

namespace Variants

structure Sorting where
  explicit : List Variant
  standard : List Variant

def IsExplicitOf (fragment : List Char) (v : Variant) : Prop :=
  ∃ condition text, Condition.parse (String.ofList fragment) = .ok (condition, text) ∧
    v = ⟨.explicit condition, text⟩

/-- What a fragment without a condition becomes: it is the whole text. -/
def IsStandardOf (fragment : List Char) (position : Nat) (v : Variant) : Prop :=
  (∃ e, Condition.parse (String.ofList fragment) = .error e) ∧
    v = ⟨.standard position, String.ofList fragment⟩

namespace Sorting

def empty : Sorting := ⟨[], []⟩

/-- Sort in the next fragment. A standard variant takes the first free position. -/
def add (s : Sorting) (fragment : List Char) : Sorting :=
  match Condition.read fragment with
  | .ok (condition, text) =>
    { s with explicit := s.explicit ++ [⟨.explicit condition, String.ofList text⟩] }
  | .error _ =>
    { s with standard := s.standard ++ [⟨.standard s.standard.length, String.ofList fragment⟩] }

def ofFragments (fragments : List (List Char)) : Sorting := fragments.foldl add empty

theorem ofFragments_concat (fragments : List (List Char)) (fragment : List Char) :
    ofFragments (fragments ++ [fragment]) = (ofFragments fragments).add fragment := by
  rw [ofFragments, List.foldl_append]
  rfl

theorem add_cases (s : Sorting) (fragment : List Char) :
    (∃ v, IsExplicitOf fragment v ∧ s.add fragment = { s with explicit := s.explicit ++ [v] }) ∨
    ∃ v, IsStandardOf fragment s.standard.length v ∧
      s.add fragment = { s with standard := s.standard ++ [v] } := by
  unfold add
  cases hread : Condition.read fragment with
  | ok result =>
      obtain ⟨condition, text⟩ := result
      refine Or.inl ⟨_, ⟨condition, String.ofList text, ?_, rfl⟩, rfl⟩
      rw [Condition.parse_eq_ok_iff, String.toList_ofList, String.toList_ofList, hread]
  | error e =>
      refine Or.inr ⟨_, ⟨⟨e, ?_⟩, rfl⟩, rfl⟩
      rw [Condition.parse_eq_error_iff, String.toList_ofList, hread]

/-- The fragments at the places `first` became the explicit variants, in this order, and those at
the places `second` the standard ones. -/
structure Partitions (fragments : List (List Char)) (first second : List Nat) (s : Sorting) :
    Prop where
  /-- Every fragment is used, and only once. -/
  perm : (first ++ second).Perm (List.range fragments.length)
  first_increasing : first.Pairwise (· < ·)
  second_increasing : second.Pairwise (· < ·)
  isExplicitOf : List.Forall₂
    (fun place v => ∃ fragment ∈ fragments[place]?, IsExplicitOf fragment v) first s.explicit
  isStandardOf : List.Forall₂
    (fun (place, position) v => ∃ fragment ∈ fragments[place]?, IsStandardOf fragment position v)
    second.zipIdx s.standard

namespace Partitions

variable {fragments : List (List Char)} {fragment : List Char} {first second : List Nat}
  {s : Sorting}

theorem mem_getElem?_append (more : List (List Char)) {place : Nat}
    (h : fragment ∈ fragments[place]?) : fragment ∈ (fragments ++ more)[place]? := by
  obtain ⟨hplace, -⟩ := List.getElem?_eq_some_iff.mp h
  rwa [List.getElem?_append_left hplace]

theorem empty : Partitions [] [] [] .empty :=
  ⟨.refl _, .nil, .nil, .nil, .nil⟩

theorem lt_of_mem (h : s.Partitions fragments first second) {place : Nat}
    (hplace : place ∈ first ++ second) : place < fragments.length :=
  List.mem_range.mp (h.perm.mem_iff.mp hplace)

theorem length_standard (h : s.Partitions fragments first second) :
    s.standard.length = second.length := by
  rw [← h.isStandardOf.length_eq, List.length_zipIdx]

theorem length_explicit_add_length_standard (h : s.Partitions fragments first second) :
    s.explicit.length + s.standard.length = fragments.length := by
  have hlength := h.perm.length_eq
  rw [List.length_append, List.length_range] at hlength
  rw [← h.isExplicitOf.length_eq, h.length_standard, hlength]

theorem pairwise_concat {places : List Nat} (h : s.Partitions fragments first second)
    (hplaces : places ⊆ first ++ second) (hincreasing : places.Pairwise (· < ·)) :
    (places ++ [fragments.length]).Pairwise (· < ·) := by
  refine List.pairwise_append.mpr ⟨hincreasing, List.pairwise_singleton _ _, ?_⟩
  intro place hplace last hlast
  rw [List.mem_singleton.mp hlast]
  exact h.lt_of_mem (hplaces hplace)

theorem isExplicitOf_append (h : s.Partitions fragments first second) (more : List (List Char)) :
    List.Forall₂ (fun place v => ∃ fragment ∈ (fragments ++ more)[place]?, IsExplicitOf fragment v)
      first s.explicit :=
  h.isExplicitOf.imp fun _ _ ⟨fragment, hfragment, hv⟩ =>
    ⟨fragment, mem_getElem?_append more hfragment, hv⟩

theorem isStandardOf_append (h : s.Partitions fragments first second) (more : List (List Char)) :
    List.Forall₂
      (fun (place, position) v =>
        ∃ fragment ∈ (fragments ++ more)[place]?, IsStandardOf fragment position v)
      second.zipIdx s.standard :=
  h.isStandardOf.imp fun _ _ ⟨fragment, hfragment, hv⟩ =>
    ⟨fragment, mem_getElem?_append more hfragment, hv⟩

theorem concat_explicit (h : s.Partitions fragments first second) {v : Variant}
    (hv : IsExplicitOf fragment v) :
    Partitions (fragments ++ [fragment]) (first ++ [fragments.length]) second
      { s with explicit := s.explicit ++ [v] } where
  perm := by
    rw [List.length_append, List.length_singleton, List.range_succ, List.append_assoc]
    exact (List.perm_append_comm.append_left first).trans
      (by simpa using h.perm.append_right [fragments.length])
  first_increasing := h.pairwise_concat (List.subset_append_left ..) h.first_increasing
  second_increasing := h.second_increasing
  isExplicitOf := List.rel_append (h.isExplicitOf_append _)
    (.cons ⟨fragment, List.getElem?_concat_length, hv⟩ .nil)
  isStandardOf := h.isStandardOf_append _

theorem concat_standard (h : s.Partitions fragments first second) {v : Variant}
    (hv : IsStandardOf fragment s.standard.length v) :
    Partitions (fragments ++ [fragment]) first (second ++ [fragments.length])
      { s with standard := s.standard ++ [v] } where
  perm := by
    rw [List.length_append, List.length_singleton, List.range_succ, ← List.append_assoc]
    exact h.perm.append_right [fragments.length]
  first_increasing := h.first_increasing
  second_increasing := h.pairwise_concat (List.subset_append_right ..) h.second_increasing
  isExplicitOf := h.isExplicitOf_append _
  isStandardOf := by
    rw [List.zipIdx_append, Nat.zero_add, ← h.length_standard]
    exact List.rel_append (h.isStandardOf_append _)
      (.cons ⟨fragment, List.getElem?_concat_length, hv⟩ .nil)

theorem add (h : s.Partitions fragments first second) (fragment : List Char) :
    ∃ first second, (s.add fragment).Partitions (fragments ++ [fragment]) first second := by
  obtain ⟨v, hv, hadd⟩ | ⟨v, hv, hadd⟩ := s.add_cases fragment
  · rw [hadd]
    exact ⟨_, _, h.concat_explicit hv⟩
  · rw [hadd]
    exact ⟨_, _, h.concat_standard hv⟩

end Partitions

theorem partitions_ofFragments (fragments : List (List Char)) :
    ∃ first second, (ofFragments fragments).Partitions fragments first second := by
  induction fragments using List.reverseRecOn with
  | nil => exact ⟨[], [], .empty⟩
  | append_singleton fragments fragment ih =>
      obtain ⟨first, second, h⟩ := ih
      rw [ofFragments_concat]
      exact h.add fragment

end Sorting

theorem standard_concat (fragments : List (List Char)) (fragment : List Char) :
    standard (fragments ++ [fragment]) =
      standard fragments ++
        if (explicit? fragment).isNone then
          [⟨.standard (standard fragments).length, String.ofList fragment⟩]
        else [] := by
  unfold standard
  rw [List.filter_append, List.zipIdx_append, List.map_append]
  by_cases h : (explicit? fragment).isNone = true
  · simp [h]
  · simp [h]

theorem ofFragments_eq (fragments : List (List Char)) :
    Sorting.ofFragments fragments = ⟨fragments.filterMap explicit?, standard fragments⟩ := by
  induction fragments using List.reverseRecOn with
  | nil => rfl
  | append_singleton fragments fragment ih =>
      rw [Sorting.ofFragments_concat, ih, standard_concat, List.filterMap_append, Sorting.add,
        explicit?.eq_def fragment]
      cases hread : Condition.read fragment with
      | ok result => simp [explicit?, hread]
      | error e => simp [explicit?, hread]

theorem toList_ofTemplate (template : String) :
    (ofTemplate template).toList = (Sorting.ofFragments (fragments template)).explicit ++
      (Sorting.ofFragments (fragments template)).standard := by
  rw [ofFragments_eq]
  rfl

theorem IsExplicitOf.no_leading_blank {fragment : List Char} {v : Variant}
    (h : IsExplicitOf fragment v) : Text.HasNoLeadingBlank v.text.toList := by
  obtain ⟨condition, text, hparse, rfl⟩ := h
  exact Condition.no_leading_blank_of_parse hparse

theorem IsStandardOf.parse_text {fragment : List Char} {position : Nat} {v : Variant}
    (h : IsStandardOf fragment position v) : ∃ e, Condition.parse v.text = .error e := by
  obtain ⟨herror, rfl⟩ := h
  exact herror

theorem exists_of_mem_right {α β : Type} {r : α → β → Prop} {xs : List α} {ys : List β}
    (h : List.Forall₂ r xs ys) {y : β} (hy : y ∈ ys) : ∃ x ∈ xs, r x y := by
  induction h with
  | nil => cases hy
  | @cons x first xs ys hfirst hrest ih =>
      rcases List.mem_cons.mp hy with rfl | hy
      · exact ⟨x, List.mem_cons_self, hfirst⟩
      · obtain ⟨x, hx, hxy⟩ := ih hy
        exact ⟨x, List.mem_cons_of_mem _ hx, hxy⟩

/-- Every fragment becomes one variant: first those with a condition, in their order, each with the
condition and the text that are read off it, then the others as they are, in their order and with
the positions from 0 on. No text has a separator in it, an explicit one does not start with a blank,
and no condition can be read off a standard one. -/
theorem ofTemplate_stable_partition (template : String) :
    ∃ (s : Sorting) (first second : List Nat),
      (ofTemplate template).toList = s.explicit ++ s.standard ∧
      s.Partitions (fragments template) first second ∧
      (ofTemplate template).length = (fragments template).length ∧
      (∀ v ∈ (ofTemplate template).toList, variantSeparator ∉ v.text.toList) ∧
      (∀ v ∈ s.explicit, Text.HasNoLeadingBlank v.text.toList) ∧
      ∀ v ∈ s.standard, ∃ e, Condition.parse v.text = .error e := by
  obtain ⟨first, second, h⟩ := Sorting.partitions_ofFragments (fragments template)
  refine ⟨_, first, second, toList_ofTemplate template, h, ?_, ?_, ?_, ?_⟩
  · rw [length, toList_ofTemplate, List.length_append, h.length_explicit_add_length_standard]
  · exact fun v hv => separator_not_mem_text hv
  · intro v hv
    obtain ⟨place, -, fragment, -, hfragment⟩ := exists_of_mem_right h.isExplicitOf hv
    exact hfragment.no_leading_blank
  · intro v hv
    obtain ⟨place, -, fragment, -, hfragment⟩ := exists_of_mem_right h.isStandardOf hv
    exact hfragment.parse_text

/-- An empty fragment, one with a blank in front and one that breaks off are standard variants. -/
example :
    (ofTemplate " one|{0}  none||{1,}few| [2,2]two").toList =
      [⟨.explicit (.values [.zero]), "none"⟩,
        ⟨.explicit (.interval ⟨.ofInt 2, .ofInt 2, true, true⟩), "two"⟩,
        ⟨.standard 0, " one"⟩, ⟨.standard 1, ""⟩, ⟨.standard 2, "{1,}few"⟩] := by
  decide +kernel

end Variants

end Phrasebook
