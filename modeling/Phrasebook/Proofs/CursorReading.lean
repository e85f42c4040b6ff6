import Phrasebook.Proofs.BytePositions
import Phrasebook.Proofs.NumeralReading

/-!
# Cursors read what readers of characters read

A cursor and the reader of characters find the same condition and the same text in a fragment, or
they fail with the same message at the same byte. On its way the cursor takes only slices that lie
within the fragment and cut through no character.
-/

namespace Phrasebook.Condition

open Number Text

/-! ## Numbers, by their digits -/

theorem number_of_no_digit {s : List Char} (h : (spanDigits (takeMinus s).2).1 = []) :
    number s = .error ⟨.number, s⟩ := by
  simp [number, magnitude, h]

theorem exists_number_of_digit {s : List Char} (h : (spanDigits (takeMinus s).2).1 ≠ []) :
    ∃ x, number s = .ok (x, (fraction (spanDigits (takeMinus s).2).2).2) := by
  simp [number, magnitude, h]

namespace Cursor

variable {source : String} {c : Cursor}

theorem numbers_of_failure {d : Cursor} {e : Failure}
    (h : (c.skipBlanks source).number source = (.error e, d)) :
    c.numbers source = (.error e, d) := by
  rw [numbers]
  split <;> simp_all

theorem numbers_of_comma {after more : Cursor} {x : Binary64}
    (hx : (c.skipBlanks source).number source = (.ok x, after))
    (hcomma : (after.skipBlanks source).eat source ',' = some more) :
    c.numbers source =
      match more.numbers source with
      | (.error e, c) => (.error e, c)
      | (.ok xs, c) => (.ok (x :: xs), c) := by
  rw [numbers]
  split
  · simp_all
  · rename_i heq
    cases hx.symm.trans heq
    split
    · rename_i heq
      cases hcomma.symm.trans heq
      rfl
    · rename_i heq
      cases hcomma.symm.trans heq

theorem numbers_of_last {after : Cursor} {x : Binary64}
    (hx : (c.skipBlanks source).number source = (.ok x, after))
    (hlast : (after.skipBlanks source).eat source ',' = none) :
    c.numbers source = (.ok [x], after.skipBlanks source) := by
  rw [numbers]
  split
  · simp_all
  · rename_i heq
    cases hx.symm.trans heq
    split
    · rename_i heq
      cases hlast.symm.trans heq
    · rfl

/-- The same value, or the same message, at the same place. -/
inductive Agrees (source : String) {α : Type} : Reading α → Outcome α → Prop where
  | ok (x : α) {rest : List Char} {c : Cursor} :
      c.At source rest → Agrees source (.ok (x, rest)) (.ok x, c)
  | fault (expected : Expected) {rest : List Char} {c : Cursor} :
      c.At source rest → Agrees source (.error ⟨expected, rest⟩) (c.malformed expected.message)

theorem Agrees.cases {α : Type} {reading : Reading α} {outcome : Outcome α}
    (h : Agrees source reading outcome) :
    (∃ (x : α) (rest : List Char) (d : Cursor),
      reading = .ok (x, rest) ∧ outcome = (.ok x, d) ∧ d.At source rest) ∨
    ∃ (expected : Expected) (rest : List Char) (d : Cursor),
      reading = .error ⟨expected, rest⟩ ∧ outcome = d.malformed expected.message ∧
        d.At source rest := by
  cases h with
  | ok x h => exact Or.inl ⟨x, _, _, rfl, rfl, h⟩
  | fault expected h => exact Or.inr ⟨expected, _, _, rfl, rfl, h⟩

namespace At

variable {s rest : List Char}

theorem sign (h : c.At source s) :
    ((c.eat source '-').getD c).At source (takeMinus s).2 := by
  unfold takeMinus
  split
  · rw [h.eat_cons (by decide)]
    exact h.next (by decide)
  · rename_i hminus
    rw [h.eat_of_head?_ne (by decide)]
    · exact h
    · intro hhead
      obtain ⟨rest, rfl⟩ := List.head?_eq_some_iff.mp hhead
      exact hminus rest rfl

theorem position_skipDigits_eq_iff (h : c.At source s) :
    (c.skipDigits source).position = c.position ↔ (spanDigits s).1 = [] := by
  have hafter := h.skipDigits.position_add
  have hbefore := h.position_add
  have hlength := congrArg byteLength (takeWhile_append_spanDigits s)
  rw [byteLength_append] at hlength
  rw [← byteLength_eq_zero_iff]
  omega

theorem skipFraction (h : c.At source s) :
    (c.skipFraction source).At source (fraction s).2 := by
  by_cases hpoint : s.head? = some '.'
  · obtain ⟨digits, rfl⟩ := List.head?_eq_some_iff.mp hpoint
    have hnext := h.next (by decide)
    rw [Cursor.skipFraction, h.eat_cons (by decide)]
    dsimp only
    by_cases hdigits : (spanDigits digits).1 = []
    · have hfraction : fraction ('.' :: digits) = ([], '.' :: digits) := by
        simp [fraction, hdigits]
      rw [if_pos (hnext.position_skipDigits_eq_iff.mpr hdigits), hfraction]
      exact hnext.skipDigits.moveTo h
    · have hfraction : (fraction ('.' :: digits)).2 = (spanDigits digits).2 := by
        simp [fraction, hdigits]
      rw [if_neg fun heq => hdigits (hnext.position_skipDigits_eq_iff.mp heq), hfraction]
      exact hnext.skipDigits
  · have hfraction : fraction s = ([], s) := by
      unfold fraction
      split
      · exact absurd rfl hpoint
      · rfl
    rw [Cursor.skipFraction, h.eat_of_head?_ne (by decide) hpoint, hfraction]
    exact h

theorem number (h : c.At source s) : Agrees source (Condition.number s) (c.number source) := by
  have hsign := h.sign
  have hwhole := hsign.skipDigits
  by_cases hdigits : (spanDigits (takeMinus s).2).1 = []
  · rw [number_of_no_digit hdigits, Cursor.number]
    dsimp only
    rw [if_pos (hsign.position_skipDigits_eq_iff.mpr hdigits)]
    exact .fault .number (hwhole.moveTo h)
  · obtain ⟨x, hx⟩ := exists_number_of_digit hdigits
    obtain ⟨n, hn, hdenotes⟩ := number_sound hx
    have hlast := hwhole.skipFraction
    rw [hn] at h
    -- What was passed over is the numeral, and its text is read as its number.
    have hposition :
        (((c.eat source '-').getD c).skipDigits source |>.skipFraction source).position =
          c.position + byteLength n.text := by
      have hend := hlast.position_add
      have hstart := h.position_add
      rw [byteLength_append] at hstart
      omega
    obtain ⟨d, hslice, -, hd⟩ := hlast.slice h
    rw [hx, Cursor.number]
    dsimp only
    rw [if_neg fun heq => hdigits (hsign.position_skipDigits_eq_iff.mp heq), hposition, hslice]
    simp only [String.toList_ofList, hdenotes.read]
    exact .ok x hd

theorem expect {a : Char} (h : c.At source s) (ha : a.toNat < 128) (message : String) :
    (∃ rest d, s = a :: rest ∧ c.expect source a message = (.ok (), d) ∧ d.At source rest) ∨
    s.head? ≠ some a ∧ c.expect source a message = c.malformed message := by
  unfold Cursor.expect
  by_cases hhead : s.head? = some a
  · obtain ⟨rest, rfl⟩ := List.head?_eq_some_iff.mp hhead
    rw [h.eat_cons ha]
    exact Or.inl ⟨rest, _, rfl, rfl, h.next ha⟩
  · rw [h.eat_of_head?_ne ha hhead]
    exact Or.inr ⟨hhead, rfl⟩

theorem numbers (h : c.At source s) : Agrees source (Condition.numbers s) (c.numbers source) := by
  -- Each number takes at least one character.
  induction hlength : s.length using Nat.strong_induction_on generalizing s c with
  | _ length ih =>
      obtain ⟨x, unread, after, hx, hcursor, hafter⟩ | ⟨expected, rest, d, hx, hcursor, hd⟩ :=
        h.skipBlanks.number.cases
      · have hblanks := hafter.skipBlanks
        by_cases hcomma : (Text.skipBlanks unread).head? = some ','
        · obtain ⟨more, hmore⟩ := List.head?_eq_some_iff.mp hcomma
          have hshorter : more.length < length := by
            have hnumber := length_number hx
            have hstart := length_skipBlanks s
            have hend := length_skipBlanks unread
            rw [hmore, List.length_cons] at hend
            omega
          rw [hmore] at hblanks
          have hnext := ih more.length hshorter (hblanks.next (by decide)) rfl
          rw [Condition.numbers_of_comma hx hmore,
            Cursor.numbers_of_comma hcursor (hblanks.eat_cons (by decide))]
          obtain ⟨xs, rest, d, hxs, hrest, hd⟩ | ⟨expected, rest, d, hxs, hrest, hd⟩ := hnext.cases
          · rw [hxs, hrest]
            exact .ok (x :: xs) hd
          · rw [hxs, hrest]
            exact .fault expected hd
        · have hlast := hblanks.eat_of_head?_ne (by decide) hcomma
          rw [Condition.numbers_of_last hx fun more hmore => hcomma (by rw [hmore]; rfl),
            Cursor.numbers_of_last hcursor hlast]
          exact .ok [x] hblanks
      · rw [numbers_of_fault hx, numbers_of_failure hcursor]
        exact .fault expected hd

theorem values (h : c.At source s) : Agrees source (valuesBody s) (c.values source) := by
  unfold valuesBody Cursor.values
  obtain ⟨xs, unread, d, hxs, hcursor, hd⟩ | ⟨expected, rest, d, hxs, hcursor, hd⟩ :=
    h.numbers.cases
  · rw [hxs, hcursor]
    dsimp only
    obtain ⟨rest, e, rfl, hbrace, he⟩ | ⟨hbrace, hfailure⟩ :=
      hd.expect (a := '\x7d') (by decide) Expected.closingBrace.message
    · rw [hbrace]
      exact Agrees.ok (Condition.values xs) he
    · rw [hfailure]
      split
      · rename_i heq
        cases heq
      · rename_i heq
        cases heq
        exact absurd rfl hbrace
      · rename_i heq
        cases heq
        exact .fault .closingBrace hd
  · rw [hxs, hcursor]
    exact .fault expected hd

theorem lowerBound (h : c.At source s) :
    Agrees source (Condition.lowerBound s) (c.lowerBound source) := by
  unfold Cursor.lowerBound
  obtain ⟨after, d, rfl, hword, hd⟩ | ⟨d, hword, hcursor, hd⟩ := h.eatWord "-Inf"
  · rw [hword]
    exact .ok Binary64.negativeInfinity hd
  · have hnumber : Condition.lowerBound s = Condition.number s := by
      unfold Condition.lowerBound
      split
      · exact absurd (List.prefix_append _ _) hword
      · rfl
    rw [hcursor, hnumber]
    exact hd.number

theorem upperBound (h : c.At source s) :
    Agrees source (Condition.upperBound s) (c.upperBound source) := by
  unfold Cursor.upperBound
  obtain ⟨after, d, rfl, hword, hd⟩ | ⟨d, hplus, hcursor, hd⟩ := h.eatWord "+Inf"
  · rw [hword]
    exact .ok Binary64.infinity hd
  · rw [hcursor]
    dsimp only
    obtain ⟨after, e, rfl, hword, he⟩ | ⟨e, hword, hcursor, he⟩ := hd.eatWord "Inf"
    · rw [hword]
      exact .ok Binary64.infinity he
    · have hnumber : Condition.upperBound s = Condition.number s := by
        unfold Condition.upperBound
        split
        · exact absurd (List.prefix_append _ _) hplus
        · exact absurd (List.prefix_append _ _) hword
        · rfl
      rw [hcursor, hnumber]
      exact he.number

theorem interval_closing (h : c.At source s) (lower upper : Binary64) (includesLower : Bool) :
    Agrees source
      (match s with
      | ']' :: rest => .ok (Condition.interval ⟨lower, upper, includesLower, true⟩, rest)
      | '[' :: rest => .ok (Condition.interval ⟨lower, upper, includesLower, false⟩, rest)
      | rest => .error ⟨.closingBracket, rest⟩)
      (match c.peek source with
      | some ']' => (.ok (Condition.interval ⟨lower, upper, includesLower, true⟩), c.next)
      | some '[' => (.ok (Condition.interval ⟨lower, upper, includesLower, false⟩), c.next)
      | _ => c.malformed Expected.closingBracket.message) := by
  split
  · rw [h.peek_cons (by decide)]
    exact .ok _ (h.next (by decide))
  · rw [h.peek_cons (by decide)]
    exact .ok _ (h.next (by decide))
  · rename_i hnoclose hnoopen
    split
    · rename_i hpeek
      obtain ⟨rest, rfl⟩ := h.exists_cons_of_peek (by decide) hpeek
      exact absurd rfl (hnoclose rest)
    · rename_i hpeek
      obtain ⟨rest, rfl⟩ := h.exists_cons_of_peek (by decide) hpeek
      exact absurd rfl (hnoopen rest)
    · exact .fault .closingBracket h

theorem interval (includesLower : Bool) (h : c.At source s) :
    Agrees source (intervalBody includesLower s) (c.interval source includesLower) := by
  unfold intervalBody Cursor.interval
  obtain ⟨lower, unread, d, hlower, hcursor, hd⟩ | ⟨expected, rest, d, hlower, hcursor, hd⟩ :=
    h.skipBlanks.lowerBound.cases
  · rw [hlower, hcursor]
    dsimp only
    obtain ⟨rest, e, hrest, hcomma, he⟩ | ⟨hcomma, hfailure⟩ :=
      hd.skipBlanks.expect (a := ',') (by decide) Expected.comma.message
    · rw [hrest, hcomma]
      obtain ⟨upper, unread, f, hupper, hcursor, hf⟩ | ⟨expected, rest, f, hupper, hcursor, hf⟩ :=
        he.skipBlanks.upperBound.cases
      · simp only [hupper, hcursor]
        exact hf.skipBlanks.interval_closing lower upper includesLower
      · simp only [hupper, hcursor]
        exact .fault expected hf
    · rw [hfailure]
      split
      · rename_i heq
        exact absurd (by rw [heq]; rfl) hcomma
      · exact .fault .comma hd.skipBlanks
  · rw [hlower, hcursor]
    exact .fault expected hd

theorem body (h : c.At source s) :
    (Condition.body s = none ∧ c.body source = (.error .noCondition, c)) ∨
    ∃ reading, Condition.body s = some reading ∧ Agrees source reading (c.body source) := by
  unfold Condition.body Cursor.body
  split
  · rw [h.peek_cons (by decide)]
    exact Or.inr ⟨_, rfl, (h.next (by decide)).values⟩
  · rw [h.peek_cons (by decide)]
    exact Or.inr ⟨_, rfl, (h.next (by decide)).interval true⟩
  · rw [h.peek_cons (by decide)]
    exact Or.inr ⟨_, rfl, (h.next (by decide)).interval false⟩
  · rename_i hnobrace hnoopen hnoclose
    refine Or.inl ⟨rfl, ?_⟩
    split
    · rename_i hpeek
      obtain ⟨rest, rfl⟩ := h.exists_cons_of_peek (by decide) hpeek
      exact absurd rfl (hnobrace rest)
    · rename_i hpeek
      obtain ⟨rest, rfl⟩ := h.exists_cons_of_peek (by decide) hpeek
      exact absurd rfl (hnoopen rest)
    · rename_i hpeek
      obtain ⟨rest, rfl⟩ := h.exists_cons_of_peek (by decide) hpeek
      exact absurd rfl (hnoclose rest)
    · rfl

end At

/-- What a cursor reads is what the reader of characters reads, and it stops in front of `rest`. -/
theorem read_eq (source : String) :
    (read source).1 = (parse source).mapError Failure.ofReadError ∧
      ∃ rest, (read source).2.At source rest := by
  have hblanks := (At.first source).skipBlanks
  unfold read parse Condition.read
  obtain ⟨hnone, hcursor⟩ | ⟨reading, hsome, hagrees⟩ := hblanks.body
  · rw [hnone, hcursor]
    exact ⟨rfl, _, hblanks⟩
  · rw [hsome]
    obtain ⟨condition, unread, d, hreading, hcursor, hd⟩ |
      ⟨expected, rest, d, hreading, hcursor, hd⟩ := hagrees.cases
    · obtain ⟨e, hrest, -, he⟩ := hd.skipBlanks.exists_rest
      rw [hreading, hcursor]
      dsimp only
      rw [hrest]
      exact ⟨rfl, _, he⟩
    · have hposition := hd.position_add
      rw [hreading, hcursor]
      refine ⟨?_, rest, hd⟩
      dsimp only [malformed]
      rw [byteLength_toList, ← hposition, Nat.add_sub_cancel]
      rfl

-- Each look for a word takes the rest of the fragment, and a number takes its own text.
example : (read "[ -Inf, 2½").2.slices = [⟨2, 11⟩, ⟨8, 11⟩, ⟨8, 11⟩, ⟨8, 9⟩] := by decide +kernel

end Cursor

end Phrasebook.Condition
