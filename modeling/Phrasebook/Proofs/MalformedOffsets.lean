import Phrasebook.Proofs.CursorReading

/-!
# Where malformed conditions break off

A reader that fails has passed over the beginning of a condition: some characters behind it would
make it a condition. So the offset of a malformed fragment lies behind the character that opens the
condition and between two characters, and what stands in front of it is not yet at fault.
-/

namespace Phrasebook.Condition

open Number Text

/-- Some characters complete it to a condition. -/
def BeginsCondition (begun : List Char) : Prop := ∃ suffix c, Writes (begun ++ suffix) c

theorem Writes.beginsCondition {written begun : List Char} {c : Condition}
    (h : Writes written c) (suffix : List Char) (heq : written = begun ++ suffix) :
    BeginsCondition begun :=
  ⟨suffix, c, heq ▸ h⟩

theorem BeginsCondition.of_append {begun written : List Char} (h : BeginsCondition written)
    (next : List Char) (heq : written = begun ++ next) : BeginsCondition begun := by
  obtain ⟨suffix, c, hwrites⟩ := h
  exact hwrites.beginsCondition (next ++ suffix) (by rw [heq, List.append_assoc])

theorem exists_numeral_denotes : ∃ (n : Numeral) (x : Binary64), n.Denotes x :=
  ⟨⟨false, ['0'], [], List.cons_ne_nil _ _, List.forall_mem_singleton.mpr rfl, nofun⟩, _, _, rfl,
    Decimal.isNearest_ofParts _ _⟩

/-! ## What was passed over before a fault -/

theorem rest_of_number_fault {s : List Char} {fault : Fault} (h : number s = .error fault) :
    fault.rest = s := by
  unfold number at h
  split at h
  · cases h
    rfl
  · cases h

theorem rest_of_lowerBound_fault {s : List Char} {fault : Fault}
    (h : lowerBound s = .error fault) : fault.rest = s := by
  unfold lowerBound at h
  split at h
  · cases h
  · exact rest_of_number_fault h

theorem rest_of_upperBound_fault {s : List Char} {fault : Fault}
    (h : upperBound s = .error fault) : fault.rest = s := by
  unfold upperBound at h
  split at h
  · cases h
  · cases h
  · exact rest_of_number_fault h

/-- A list of numbers breaks off where a number is missing, so any number continues it. -/
theorem exists_begun_of_numbers_fault {s : List Char} {fault : Fault}
    (h : numbers s = .error fault) {n : Numeral} {x : Binary64} (hx : n.Denotes x) :
    ∃ begun xs, s = begun ++ fault.rest ∧ WritesNumbers (begun ++ n.text) xs := by
  induction s using numbers.induct with
  | case1 s missing hnumber =>
      obtain ⟨before, hbefore, hs⟩ := exists_blanks_append_skipBlanks s
      rw [numbers_of_fault hnumber] at h
      cases h
      rw [← rest_of_number_fault hnumber] at hs
      have hwrites := WritesNumbers.last hbefore hx isBlanks_nil
      rw [List.append_nil] at hwrites
      exact ⟨before, [x], hs, hwrites⟩
  | case2 s first unread hnumber more hmore missing hnumbers ih =>
      -- What follows the comma breaks off as well.
      rw [numbers_of_comma hnumber hmore, hnumbers] at h
      cases h
      obtain ⟨begun, xs, hbegun, hwrites⟩ := ih hnumbers
      obtain ⟨before, hbefore, hs⟩ := exists_blanks_append_skipBlanks s
      obtain ⟨m, hm, hdenotes⟩ := number_sound hnumber
      obtain ⟨after, hafter, hunread⟩ := exists_blanks_append_skipBlanks unread
      refine ⟨before ++ m.text ++ after ++ ',' :: begun, first :: xs, ?_, ?_⟩
      · rw [hs, hm, hunread, hmore, hbegun]
        simp
      · have hcomma := WritesNumbers.comma hbefore hdenotes hafter hwrites
        simpa using hcomma
  | case3 s first unread hnumber more hmore xs rest hnumbers ih =>
      rw [numbers_of_comma hnumber hmore, hnumbers] at h
      cases h
  | case4 s first unread hnumber hlast =>
      rw [numbers_of_last hnumber hlast] at h
      cases h

theorem exists_begun_of_valuesBody_fault {s : List Char} {fault : Fault}
    (h : valuesBody s = .error fault) :
    ∃ begun, s = begun ++ fault.rest ∧ BeginsCondition ('\x7b' :: begun) := by
  unfold valuesBody at h
  split at h
  · rename_i hnumbers
    cases h
    obtain ⟨n, x, hx⟩ := exists_numeral_denotes
    obtain ⟨begun, xs, hs, hwrites⟩ := exists_begun_of_numbers_fault hnumbers hx
    exact ⟨begun, hs, (Writes.values hwrites).beginsCondition (n.text ++ ['\x7d']) (by simp)⟩
  · cases h
  · rename_i hnumbers
    cases h
    obtain ⟨written, hwrites, hs⟩ := numbers_sound hnumbers
    exact ⟨written, hs, (Writes.values hwrites).beginsCondition ['\x7d'] rfl⟩

section Interval

variable {b₁ l b₂ b₃ r b₄ : List Char} {lower upper : Binary64}

theorem writes_closed_interval (includesLower : Bool) (hb₁ : IsBlanks b₁)
    (hl : WritesLower l lower) (hb₂ : IsBlanks b₂) (hb₃ : IsBlanks b₃) (hr : WritesUpper r upper)
    (hb₄ : IsBlanks b₄) :
    Writes (openingBracket includesLower :: b₁ ++ l ++ b₂ ++ ',' :: b₃ ++ r ++ b₄ ++ [']'])
      (.interval ⟨lower, upper, includesLower, true⟩) :=
  @Writes.interval b₁ l b₂ b₃ r b₄ ⟨lower, upper, includesLower, true⟩ hb₁ hl hb₂ hb₃ hr hb₄

variable (includesLower : Bool)

theorem beginsCondition_upper (hb₁ : IsBlanks b₁) (hl : WritesLower l lower) (hb₂ : IsBlanks b₂)
    (hb₃ : IsBlanks b₃) :
    BeginsCondition (openingBracket includesLower :: (b₁ ++ l ++ b₂ ++ ',' :: b₃)) := by
  obtain ⟨n, x, hx⟩ := exists_numeral_denotes
  have hwrites := writes_closed_interval includesLower hb₁ hl hb₂ hb₃ (.numeral hx) isBlanks_nil
  exact hwrites.beginsCondition (n.text ++ [']']) (by simp)

theorem beginsCondition_comma (hb₁ : IsBlanks b₁) (hl : WritesLower l lower)
    (hb₂ : IsBlanks b₂) :
    BeginsCondition (openingBracket includesLower :: (b₁ ++ l ++ b₂)) :=
  (beginsCondition_upper includesLower hb₁ hl hb₂ isBlanks_nil).of_append [','] (by simp)

theorem beginsCondition_lower (hb₁ : IsBlanks b₁) :
    BeginsCondition (openingBracket includesLower :: b₁) := by
  obtain ⟨n, x, hx⟩ := exists_numeral_denotes
  exact (beginsCondition_comma includesLower hb₁ (.numeral hx) isBlanks_nil).of_append n.text
    (by simp)

end Interval

/-- An interval breaks off in front of a bound, of the comma or of its last bracket. -/
theorem exists_begun_of_intervalBody_fault {includesLower : Bool} {s : List Char} {fault : Fault}
    (h : intervalBody includesLower s = .error fault) :
    ∃ begun, s = begun ++ fault.rest ∧
      BeginsCondition (openingBracket includesLower :: begun) := by
  unfold intervalBody at h
  obtain ⟨b₁, hb₁, hs⟩ := exists_blanks_append_skipBlanks s
  split at h
  · rename_i hlower
    cases h
    rw [← rest_of_lowerBound_fault hlower] at hs
    exact ⟨b₁, hs, beginsCondition_lower includesLower hb₁⟩
  rename_i lower afterLower heq
  obtain ⟨l, hl, hlower⟩ := lowerBound_sound heq
  obtain ⟨b₂, hb₂, hafterLower⟩ := exists_blanks_append_skipBlanks afterLower
  have hbounded : s = b₁ ++ l ++ b₂ ++ skipBlanks afterLower := by
    rw [List.append_assoc, List.append_assoc, ← hafterLower, ← hlower]
    exact hs
  split at h
  · rename_i afterComma hcomma
    obtain ⟨b₃, hb₃, hafterComma⟩ := exists_blanks_append_skipBlanks afterComma
    have hparted : s = b₁ ++ l ++ b₂ ++ ',' :: b₃ ++ skipBlanks afterComma := by
      rw [hbounded, hcomma, List.append_assoc _ (',' :: b₃), List.cons_append, ← hafterComma]
    split at h
    · rename_i hupper
      cases h
      rw [← rest_of_upperBound_fault hupper] at hparted
      exact ⟨_, hparted, beginsCondition_upper includesLower hb₁ hl hb₂ hb₃⟩
    rename_i upper afterUpper heq
    obtain ⟨r, hr, hupper⟩ := upperBound_sound heq
    obtain ⟨b₄, hb₄, hafterUpper⟩ := exists_blanks_append_skipBlanks afterUpper
    split at h
    · cases h
    · cases h
    · cases h
      have hwrites := writes_closed_interval includesLower hb₁ hl hb₂ hb₃ hr hb₄
      refine ⟨b₁ ++ l ++ b₂ ++ ',' :: b₃ ++ r ++ b₄, ?_, hwrites.beginsCondition [']'] (by simp)⟩
      rw [hparted, hupper, List.append_assoc _ r, List.append_assoc _ _ (skipBlanks _),
        List.append_assoc r, ← hafterUpper]
  · cases h
    exact ⟨_, hbounded, beginsCondition_comma includesLower hb₁ hl hb₂⟩

theorem exists_begun_of_body_fault {s : List Char} {fault : Fault}
    (h : body s = some (.error fault)) :
    ∃ opener begun, s = opener :: begun ++ fault.rest ∧
      (opener = '\x7b' ∨ opener = '[' ∨ opener = ']') ∧ BeginsCondition (opener :: begun) := by
  unfold body at h
  split at h
  · obtain ⟨begun, rfl, hbegins⟩ := exists_begun_of_valuesBody_fault (Option.some.inj h)
    exact ⟨_, begun, rfl, Or.inl rfl, hbegins⟩
  · obtain ⟨begun, rfl, hbegins⟩ := exists_begun_of_intervalBody_fault (Option.some.inj h)
    exact ⟨_, begun, rfl, Or.inr (Or.inl rfl), hbegins⟩
  · obtain ⟨begun, rfl, hbegins⟩ := exists_begun_of_intervalBody_fault (Option.some.inj h)
    exact ⟨_, begun, rfl, Or.inr (Or.inr rfl), hbegins⟩
  · cases h

/-! ## Offsets -/

/-- What was read of a malformed fragment: blanks, and the beginning of a condition up to the
offset. -/
theorem exists_begun_of_read_malformed {fragment : List Char} {offset : Nat} {expected : Expected}
    (h : read fragment = .error (.malformed offset expected)) :
    ∃ blanks opener begun rest, fragment = blanks ++ opener :: begun ++ rest ∧ IsBlanks blanks ∧
      (opener = '\x7b' ∨ opener = '[' ∨ opener = ']') ∧ BeginsCondition (opener :: begun) ∧
      offset = byteLength (blanks ++ opener :: begun) := by
  obtain ⟨blanks, hblanks, hfragment⟩ := exists_blanks_append_skipBlanks fragment
  unfold read at h
  split at h
  · cases h
  · rename_i fault hbody
    obtain ⟨opener, begun, hskip, hopener, hbegins⟩ := exists_begun_of_body_fault hbody
    have happend : fragment = blanks ++ opener :: begun ++ fault.rest := by
      rw [List.append_assoc, ← hskip]
      exact hfragment
    refine ⟨blanks, opener, begun, fault.rest, happend, hblanks, hopener, hbegins, ?_⟩
    cases h
    conv_lhs => rw [happend]
    rw [byteLength_append, Nat.add_sub_cancel]
  · cases h

/-- With what is still missing behind it, the beginning of a condition is read as one. -/
theorem BeginsCondition.exists_read {blanks begun : List Char} (h : BeginsCondition begun)
    (hblanks : IsBlanks blanks) :
    ∃ suffix c, read (blanks ++ begun ++ suffix) = .ok (c, []) := by
  obtain ⟨suffix, c, hwrites⟩ := h
  have happend : blanks ++ (begun ++ suffix) ++ [] ++ [] = blanks ++ begun ++ suffix := by simp
  exact ⟨suffix, c, Split.read_eq
    ⟨blanks, begun ++ suffix, [], [], c, happend, hblanks, hwrites, isBlanks_nil, nofun⟩⟩

/-- The offset of a malformed fragment lies in the fragment, between two characters and behind the
one that opens the condition, and what stands in front of it can be completed to a fragment that
has a condition. And a cursor, which reads the same in place, takes only slices that lie in the
fragment and between two characters, whether the fragment has a condition, none or a malformed
one. -/
theorem parse_malformed_offset (fragment : String) :
    (∀ offset expected, parse fragment = .error (.malformed offset expected) →
      offset ≤ fragment.utf8ByteSize ∧ (⟨offset⟩ : String.Pos.Raw).IsValid fragment ∧
      ∃ before after : String, before ++ after = fragment ∧ before.utf8ByteSize = offset ∧
        (∃ blanks opener begun, before.toList = blanks ++ opener :: begun ∧ IsBlanks blanks ∧
          (opener = '\x7b' ∨ opener = '[' ∨ opener = ']')) ∧
        ∃ suffix c text, parse (before ++ suffix) = .ok (c, text)) ∧
    (Cursor.read fragment).1 = (parse fragment).mapError Cursor.Failure.ofReadError ∧
    ∀ s ∈ (Cursor.read fragment).2.slices, s.IsSound fragment := by
  obtain ⟨hcursor, rest, hat⟩ := Cursor.read_eq fragment
  refine ⟨fun offset expected h => ?_, hcursor, hat.isSound⟩
  obtain ⟨blanks, opener, begun, rest, hfragment, hblanks, hopener, hbegins, rfl⟩ :=
    exists_begun_of_read_malformed ((parse_eq_error_iff ..).mp h)
  obtain ⟨suffix, c, hread⟩ := hbegins.exists_read hblanks
  have hlength := congrArg byteLength hfragment
  rw [byteLength_append, byteLength_toList] at hlength
  refine ⟨by omega, isValid_byteLength hfragment, String.ofList (blanks ++ opener :: begun),
    String.ofList rest, ?_, ?_, ⟨blanks, opener, begun, String.toList_ofList, hblanks, hopener⟩,
    String.ofList suffix, c, "", ?_⟩
  · rw [← String.ofList_append, ← hfragment, String.ofList_toList]
  · rw [← byteLength_toList, String.toList_ofList]
  · rw [parse_eq_ok_iff, String.toList_append, String.toList_ofList, String.toList_ofList]
    exact hread

/-- A point without digits is not part of the bound in front of it. -/
theorem parse_dangling_point :
    parse " ]0.½" = .error (.malformed 3 .comma) ∧
      3 ≤ " ]0.½".utf8ByteSize ∧ (⟨3⟩ : String.Pos.Raw).IsValid " ]0.½" ∧
      ∃ before after : String, before ++ after = " ]0.½" ∧ before.utf8ByteSize = 3 ∧
        (∃ blanks opener begun, before.toList = blanks ++ opener :: begun ∧ IsBlanks blanks ∧
          (opener = '\x7b' ∨ opener = '[' ∨ opener = ']')) ∧
        ∃ suffix c text, parse (before ++ suffix) = .ok (c, text) := by
  have hparse : parse " ]0.½" = .error (.malformed 3 .comma) := by decide +kernel
  exact ⟨hparse, (parse_malformed_offset " ]0.½").1 3 .comma hparse⟩

end Phrasebook.Condition
