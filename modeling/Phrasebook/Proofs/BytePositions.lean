import Mathlib.Data.String.Basic
import Phrasebook.Condition.Cursor
import Phrasebook.Proofs.ConditionGrammar

/-!
# Positions between characters

A cursor sees bytes. As long as it passes over nothing but ASCII characters it stands between two
characters, sees of the next one whether it is the ASCII character that is looked for, and cuts out
whole characters.
-/

namespace Phrasebook.Condition

/-! ## Lengths in bytes -/

theorem byteLength_eq_utf8Len (s : List Char) : byteLength s = String.utf8Len s := by
  induction s with
  | nil => rfl
  | cons c s ih => rw [byteLength, String.utf8Len_cons, ih, Nat.add_comm]

theorem byteLength_append (s t : List Char) :
    byteLength (s ++ t) = byteLength s + byteLength t := by
  simp only [byteLength_eq_utf8Len, String.utf8Len_append]

theorem byteLength_toList (s : String) : byteLength s.toList = s.utf8ByteSize := by
  rw [byteLength_eq_utf8Len, ← String.utf8ByteSize_ofList, String.ofList_toList]

theorem byteLength_eq_zero_iff {s : List Char} : byteLength s = 0 ↔ s = [] := by
  rw [byteLength_eq_utf8Len, String.utf8Len_eq_zero]

theorem byteLength_singleton {c : Char} (h : c.toNat < 128) : byteLength [c] = 1 := by
  have hsize : c.utf8Size = 1 := by
    rw [Char.utf8Size_eq_one_iff, UInt32.le_iff_toNat_le]
    exact Nat.le_of_lt_succ h
  rw [byteLength, byteLength, hsize]

section Source

variable {source : String} {before middle rest : List Char}

theorem isValid_byteLength (h : source.toList = before ++ rest) :
    (⟨byteLength before⟩ : String.Pos.Raw).IsValid source := by
  rw [String.Pos.Raw.isValid_iff_exists_append]
  refine ⟨String.ofList before, String.ofList rest, ?_, ?_⟩
  · rw [← String.ofList_append, ← h, String.ofList_toList]
  · rw [String.rawEndPos_ofList, byteLength_eq_utf8Len]

theorem extract_byteLength (h : source.toList = before ++ (middle ++ rest)) :
    String.Pos.Raw.extract source ⟨byteLength before⟩ ⟨byteLength before + byteLength middle⟩ =
      String.ofList middle := by
  have hsource : source = String.ofList (before ++ middle ++ rest) := by
    rw [List.append_assoc, ← h, String.ofList_toList]
  rw [hsource, byteLength_eq_utf8Len, byteLength_eq_utf8Len, String.extract_of_valid]

/-! ## The byte at a position -/

theorem getElem?_toByteArray_of_list (bytes : List UInt8) (i : Nat) :
    bytes.toByteArray[i]? = bytes[i]? := by
  by_cases h : i < bytes.length
  · rw [getElem?_pos bytes.toByteArray i (by simpa using h)]
    simp [h]
  · rw [getElem?_neg bytes.toByteArray i (by simpa using h)]
    simp [h]

theorem length_flatMap_utf8EncodeChar (s : List Char) :
    (s.flatMap String.utf8EncodeChar).length = byteLength s := by
  induction s with
  | nil => rfl
  | cons c s ih =>
      rw [List.flatMap_cons, List.length_append, ih, String.length_utf8EncodeChar, byteLength]

theorem getElem?_toByteArray (h : source.toList = before ++ rest) :
    source.toByteArray[byteLength before]? =
      rest.head?.bind fun c => (String.utf8EncodeChar c)[0]? := by
  have hlength := length_flatMap_utf8EncodeChar before
  rw [← String.utf8Encode_toList, List.utf8Encode, getElem?_toByteArray_of_list, h,
    List.flatMap_append, List.getElem?_append_right (Nat.le_of_eq hlength), hlength, Nat.sub_self]
  cases rest with
  | nil => rfl
  | cons c rest =>
      rw [List.flatMap_cons, List.getElem?_append_left (by simp [Char.utf8Size_pos])]
      rfl

end Source

theorem toNat_ofUInt8 (b : UInt8) : (Char.ofUInt8 b).toNat = b.toNat :=
  UInt8.toNat_toUInt32 b

theorem le_toNat_or {a b : UInt8} {n : Nat} (h : n ≤ b.toNat) : n ≤ (a ||| b).toNat := by
  rw [UInt8.toNat_or]
  exact h.trans Nat.right_le_or

/-- An ASCII character is its own first byte, and no other character starts with such a byte. -/
theorem exists_leading_byte (c : Char) :
    ∃ b, (String.utf8EncodeChar c)[0]? = some b ∧
      (c.toNat < 128 → Char.ofUInt8 b = c) ∧ (128 ≤ c.toNat → 128 ≤ b.toNat) := by
  have hone : c.utf8Size = 1 ↔ c.toNat ≤ 127 := by
    rw [Char.utf8Size_eq_one_iff, UInt32.le_iff_toNat_le]
    rfl
  rcases c.utf8Size_eq with h | h | h | h
  · rw [String.utf8EncodeChar_eq_singleton h]
    refine ⟨_, rfl, fun hc => ?_, fun hc => by omega⟩
    apply Char.toNat_inj.mp
    rw [toNat_ofUInt8, UInt32.toNat_toUInt8]
    exact Nat.mod_eq_of_lt (hc.trans (by decide))
  · rw [String.utf8EncodeChar_eq_cons_cons h]
    exact ⟨_, rfl, fun hc => by omega, fun _ => le_toNat_or (by decide)⟩
  · rw [String.utf8EncodeChar_eq_cons_cons_cons h]
    exact ⟨_, rfl, fun hc => by omega, fun _ => le_toNat_or (by decide)⟩
  · rw [String.utf8EncodeChar_eq_cons_cons_cons_cons h]
    exact ⟨_, rfl, fun hc => by omega, fun _ => le_toNat_or (by decide)⟩

def OnlyAscii (accepts : Char → Bool) : Prop := ∀ c, accepts c = true → c.toNat < 128

theorem onlyAscii_isAsciiBlank : OnlyAscii Text.isAsciiBlank := by
  intro c hc
  simp only [Text.isAsciiBlank, Bool.or_eq_true, beq_iff_eq] at hc
  rcases hc with (((rfl | rfl) | rfl) | rfl) | rfl <;> decide

theorem onlyAscii_isDigit : OnlyAscii Char.isDigit := fun _ hc =>
  (Char.isDigit_iff_toNat.mp hc).2.trans_lt (by decide)

/-! ## Cursors between characters -/

/-- A slice lies within the text and does not cut through a character. -/
structure Slice.IsSound (source : String) (s : Slice) : Prop where
  start_le_stop : s.start ≤ s.stop
  stop_le : s.stop ≤ source.utf8ByteSize
  isValid_start : (⟨s.start⟩ : String.Pos.Raw).IsValid source
  isValid_stop : (⟨s.stop⟩ : String.Pos.Raw).IsValid source

namespace Cursor

/-- The cursor stands in front of the last characters `rest`, and its slices are sound. -/
structure At (source : String) (rest : List Char) (c : Cursor) : Prop where
  exists_before : ∃ before, source.toList = before ++ rest ∧ c.position = byteLength before
  isSound : ∀ s ∈ c.slices, s.IsSound source

namespace At

variable {source : String} {rest passed : List Char} {a : Char} {c d : Cursor}

theorem first (source : String) : Cursor.first.At source source.toList :=
  ⟨⟨[], rfl, rfl⟩, nofun⟩

theorem position_add (h : c.At source rest) :
    c.position + byteLength rest = source.utf8ByteSize := by
  obtain ⟨before, hbefore, hposition⟩ := h.exists_before
  rw [hposition, ← byteLength_append, ← hbefore, byteLength_toList]

theorem moveTo (h : d.At source passed) (hc : c.At source rest) :
    (d.moveTo c.position).At source rest :=
  ⟨hc.exists_before, h.isSound⟩

theorem moveTo_add (h : c.At source (passed ++ rest)) :
    (c.moveTo (c.position + byteLength passed)).At source rest := by
  obtain ⟨before, hbefore, hposition⟩ := h.exists_before
  refine ⟨⟨before ++ passed, ?_, ?_⟩, h.isSound⟩
  · rw [hbefore, List.append_assoc]
  · rw [byteLength_append, ← hposition]
    rfl

theorem next (h : c.At source (a :: rest)) (ha : a.toNat < 128) : c.next.At source rest := by
  have hmove : (c.moveTo (c.position + byteLength [a])).At source rest := moveTo_add h
  rwa [byteLength_singleton ha] at hmove

/-! ### Bytes that come next -/

theorem peek_nil (h : c.At source []) : c.peek source = none := by
  obtain ⟨before, hbefore, hposition⟩ := h.exists_before
  rw [peek, hposition, getElem?_toByteArray hbefore]
  rfl

theorem exists_peek_cons (h : c.At source (a :: rest)) :
    ∃ b, c.peek source = some b ∧ (a.toNat < 128 → b = a) ∧ (128 ≤ a.toNat → 128 ≤ b.toNat) := by
  obtain ⟨before, hbefore, hposition⟩ := h.exists_before
  obtain ⟨b, hb, hsame, hother⟩ := exists_leading_byte a
  refine ⟨Char.ofUInt8 b, ?_, hsame, ?_⟩
  · rw [peek, hposition, getElem?_toByteArray hbefore, List.head?_cons, Option.bind_some, hb]
    rfl
  · rwa [toNat_ofUInt8]

theorem peek_eq_some_iff (h : c.At source rest) (ha : a.toNat < 128) :
    c.peek source = some a ↔ rest.head? = some a := by
  cases rest with
  | nil =>
      rw [h.peek_nil]
      simp
  | cons other rest =>
      obtain ⟨b, hb, hsame, hother⟩ := h.exists_peek_cons
      rw [hb, List.head?_cons, Option.some.injEq, Option.some.injEq]
      constructor
      · rintro rfl
        exact (hsame (by by_contra hlt; exact absurd (hother (by omega)) (by omega))).symm
      · rintro rfl
        exact hsame ha

theorem peek_cons (h : c.At source (a :: rest)) (ha : a.toNat < 128) : c.peek source = some a :=
  (h.peek_eq_some_iff ha).mpr rfl

theorem exists_cons_of_peek (h : c.At source rest) (ha : a.toNat < 128)
    (hpeek : c.peek source = some a) : ∃ after, rest = a :: after :=
  List.head?_eq_some_iff.mp ((h.peek_eq_some_iff ha).mp hpeek)

theorem exists_peek_accepts {accepts : Char → Bool} (haccepts : OnlyAscii accepts)
    (h : c.At source (a :: rest)) : ∃ b, c.peek source = some b ∧ accepts b = accepts a := by
  obtain ⟨b, hb, hsame, hother⟩ := h.exists_peek_cons
  refine ⟨b, hb, ?_⟩
  by_cases ha : a.toNat < 128
  · rw [hsame ha]
  · have hout : ∀ c : Char, 128 ≤ c.toNat → accepts c = false := by
      intro c hc
      by_contra hne
      exact absurd (haccepts c (by simpa using hne)) (Nat.not_lt.mpr hc)
    rw [hout a (by omega), hout b (hother (by omega))]

theorem skipWhile {accepts : Char → Bool} (haccepts : OnlyAscii accepts)
    (h : c.At source rest) : (c.skipWhile source accepts).At source (rest.dropWhile accepts) := by
  induction rest generalizing c with
  | nil =>
      rw [Cursor.skipWhile]
      split
      · rename_i hb
        rw [h.peek_nil] at hb
        cases hb
      · exact h
  | cons a rest ih =>
      obtain ⟨b, hb, hsame⟩ := h.exists_peek_accepts haccepts
      rw [Cursor.skipWhile]
      split
      · rename_i heq
        cases hb.symm.trans heq
        by_cases ha : accepts a = true
        · rw [hsame, if_pos ha, List.dropWhile_cons_of_pos ha]
          exact ih (h.next (haccepts a ha))
        · rw [hsame, if_neg ha, List.dropWhile_cons_of_neg ha]
          exact h
      · rename_i heq
        cases hb.symm.trans heq

theorem skipBlanks (h : c.At source rest) :
    (c.skipBlanks source).At source (Text.skipBlanks rest) :=
  h.skipWhile onlyAscii_isAsciiBlank

theorem skipDigits (h : c.At source rest) :
    (c.skipDigits source).At source (Number.spanDigits rest).2 :=
  h.skipWhile onlyAscii_isDigit

theorem eat_cons (h : c.At source (a :: rest)) (ha : a.toNat < 128) :
    c.eat source a = some c.next :=
  if_pos (h.peek_cons ha)

theorem eat_of_head?_ne (h : c.At source rest) (ha : a.toNat < 128) (hne : rest.head? ≠ some a) :
    c.eat source a = none :=
  if_neg fun hpeek => hne ((h.peek_eq_some_iff ha).mp hpeek)

/-! ### Slices -/

theorem slice (h : d.At source rest) {after : List Char} (hc : c.At source (passed ++ after)) :
    ∃ e, d.slice source c.position (c.position + byteLength passed) = (String.ofList passed, e) ∧
      e.position = d.position ∧ e.At source rest := by
  obtain ⟨before, hbefore, hposition⟩ := hc.exists_before
  refine ⟨_, Prod.ext ?_ rfl, rfl, h.exists_before, ?_⟩
  · rw [hposition]
    exact extract_byteLength hbefore
  · intro s hs
    rcases List.mem_append.mp hs with hs | hs
    · exact h.isSound s hs
    · obtain rfl := List.mem_singleton.mp hs
      have hsize := hc.position_add
      have hstop : source.toList = (before ++ passed) ++ after := by
        rw [hbefore, List.append_assoc]
      have hvalid := isValid_byteLength hstop
      rw [byteLength_append] at hsize hvalid
      rw [hposition] at hsize ⊢
      exact ⟨by dsimp only; omega, by dsimp only; omega, isValid_byteLength hbefore, hvalid⟩

theorem exists_rest (h : c.At source rest) :
    ∃ d, c.rest source = (String.ofList rest, d) ∧ d.position = c.position ∧ d.At source rest := by
  have hrest : c.At source (rest ++ []) := by rwa [List.append_nil]
  have hslice := h.slice hrest
  rwa [h.position_add] at hslice

theorem eatWord (word : String) (h : c.At source rest) :
    (∃ after d, rest = word.toList ++ after ∧ c.eatWord source word = (true, d) ∧
      d.At source after) ∨
    ∃ d, ¬ word.toList <+: rest ∧ c.eatWord source word = (false, d) ∧ d.At source rest := by
  obtain ⟨d, hrest, hposition, hd⟩ := h.exists_rest
  unfold Cursor.eatWord
  rw [hrest]
  simp only [String.toList_ofList, List.isPrefixOf_iff_prefix]
  by_cases hword : word.toList <+: rest
  · obtain ⟨after, rfl⟩ := hword
    refine Or.inl ⟨after, _, rfl, if_pos (List.prefix_append _ _), ?_⟩
    rw [← byteLength_toList]
    exact hd.moveTo_add
  · exact Or.inr ⟨d, hword, if_neg hword, hd⟩

end At

end Cursor

end Phrasebook.Condition
