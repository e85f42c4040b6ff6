import Phrasebook.Proofs.ConditionGrammar

/-!
# Reading conditions by the grammar

The reader accepts exactly the fragments that can be split into a condition and a text, and a
fragment can be split in one way only, so what stands behind a condition has no part in it.
-/

namespace Phrasebook

namespace Number

theorem isDigit_eq_false_of_isAsciiBlank {c : Char} (h : Text.isAsciiBlank c = true) :
    c.isDigit = false := by
  simp only [Text.isAsciiBlank, Bool.or_eq_true, beq_iff_eq] at h
  rcases h with (((rfl | rfl) | rfl) | rfl) | rfl <;> decide

theorem spanDigits_append {digits rest : List Char} (hdigits : ∀ c ∈ digits, c.isDigit = true)
    (hrest : ∀ c, rest.head? = some c → c.isDigit = false) :
    spanDigits (digits ++ rest) = (digits, rest) := by
  have hnone : rest.takeWhile Char.isDigit = [] ∧ rest.dropWhile Char.isDigit = rest := by
    cases rest with
    | nil => exact ⟨rfl, rfl⟩
    | cons c rest => simp [hrest c rfl]
  rw [spanDigits, List.takeWhile_append_of_pos hdigits, List.dropWhile_append_of_pos hdigits,
    hnone.1, hnone.2, List.append_nil]

end Number

namespace Condition

open Number Text

/-! ## Numerals -/

/-- Neither a digit nor a point comes next, so a numeral cannot go on. -/
def EndsNumeral (rest : List Char) : Prop :=
  ∀ c, rest.head? = some c → c.isDigit = false ∧ c ≠ '.'

theorem endsNumeral_append_cons {blanks : List Char} (h : IsBlanks blanks) {c : Char}
    (hdigit : c.isDigit = false) (hpoint : c ≠ '.') (rest : List Char) :
    EndsNumeral (blanks ++ c :: rest) := by
  intro first hfirst
  cases blanks with
  | nil =>
      obtain rfl := Option.some.inj hfirst
      exact ⟨hdigit, hpoint⟩
  | cons blank blanks =>
      obtain rfl := Option.some.inj hfirst
      have hblank := h blank List.mem_cons_self
      refine ⟨isDigit_eq_false_of_isAsciiBlank hblank, ?_⟩
      rintro rfl
      cases hblank

theorem Numeral.exists_whole_eq (n : Numeral) :
    ∃ digit digits, n.whole = digit :: digits ∧ digit.isDigit = true := by
  cases hwhole : n.whole with
  | nil => exact absurd hwhole n.whole_ne_nil
  | cons digit digits =>
      exact ⟨digit, digits, rfl, n.isDigit_whole digit (hwhole ▸ List.mem_cons_self)⟩

theorem Numeral.text_append (n : Numeral) (rest : List Char) :
    ∃ digit tail, digit.isDigit = true ∧
      (n.text ++ rest = digit :: tail ∨ n.text ++ rest = '-' :: digit :: tail) := by
  obtain ⟨digit, digits, hwhole, hdigit⟩ := n.exists_whole_eq
  refine ⟨digit, digits ++ (n.fractionText ++ rest), hdigit, ?_⟩
  rw [Numeral.text, Numeral.sign, hwhole]
  cases n.negative with
  | true => exact Or.inr (by simp)
  | false => exact Or.inl (by simp)

theorem Numeral.no_leading_blank (n : Numeral) (rest : List Char) :
    HasNoLeadingBlank (n.text ++ rest) := by
  intro c hc
  obtain ⟨digit, tail, hdigit, heq | heq⟩ := n.text_append rest
  · rw [heq] at hc
    obtain rfl := Option.some.inj hc
    by_contra hblank
    rw [isDigit_eq_false_of_isAsciiBlank (by simpa using hblank)] at hdigit
    cases hdigit
  · rw [heq] at hc
    obtain rfl := Option.some.inj hc
    rfl

theorem takeMinus_eq (s : List Char) :
    s = (if (takeMinus s).1 then ['-'] else []) ++ (takeMinus s).2 := by
  unfold takeMinus
  split <;> rfl

theorem takeMinus_sign_append (n : Numeral) (rest : List Char) :
    takeMinus (n.sign ++ n.whole ++ rest) = (n.negative, n.whole ++ rest) := by
  obtain ⟨digit, digits, hwhole, hdigit⟩ := n.exists_whole_eq
  rw [Numeral.sign, hwhole]
  cases n.negative with
  | true => rfl
  | false =>
      have hminus : digit ≠ '-' := by
        rintro rfl
        cases hdigit
      unfold takeMinus
      split
      · rename_i heq
        simp only [Bool.false_eq_true, ↓reduceIte, List.nil_append, List.cons_append,
          List.cons.injEq] at heq
        exact absurd heq.1 hminus
      · rfl

theorem fraction_eq (s : List Char) :
    s = (if (fraction s).1 = [] then [] else '.' :: (fraction s).1) ++ (fraction s).2 ∧
      ∀ c ∈ (fraction s).1, c.isDigit = true := by
  unfold fraction
  split
  · rename_i rest
    have hsplit := takeWhile_append_spanDigits rest
    dsimp only
    split
    · simp
    · rename_i hdigits
      have hne : (spanDigits rest).1 ≠ [] := by simpa using hdigits
      rw [if_neg hne]
      refine ⟨?_, fun c hc => isDigit_of_mem_spanDigits hc⟩
      rw [List.cons_append, hsplit]
  · simp

theorem fraction_append {digits rest : List Char} (hdigits : ∀ c ∈ digits, c.isDigit = true)
    (hrest : EndsNumeral rest) :
    fraction ((if digits = [] then [] else '.' :: digits) ++ rest) = (digits, rest) := by
  by_cases hnil : digits = []
  · subst hnil
    rw [if_pos rfl, List.nil_append]
    unfold fraction
    split
    · exact absurd rfl (hrest '.' rfl).2
    · rfl
  · rw [if_neg hnil, List.cons_append, fraction,
      spanDigits_append hdigits fun c hc => (hrest c hc).1]
    simp [hnil]

theorem number_sound {s rest : List Char} {x : Binary64} (h : number s = .ok (x, rest)) :
    ∃ n : Numeral, s = n.text ++ rest ∧ n.Denotes x := by
  unfold number magnitude at h
  have hsign := takeMinus_eq s
  generalize takeMinus s = taken at h hsign
  obtain ⟨negative, unsigned⟩ := taken
  dsimp only at h hsign
  have hspan := takeWhile_append_spanDigits unsigned
  have hwhole := @isDigit_of_mem_spanDigits unsigned
  generalize spanDigits unsigned = spanned at h hspan hwhole
  obtain ⟨whole, unread⟩ := spanned
  obtain ⟨hfraction, hdigits⟩ := fraction_eq unread
  generalize fraction unread = parts at h hfraction hdigits
  obtain ⟨digits, after⟩ := parts
  dsimp only at h hspan hwhole hfraction hdigits
  by_cases hempty : whole.isEmpty = true
  · rw [if_pos hempty] at h
    cases h
  · rw [if_neg hempty] at h
    cases h
    refine ⟨⟨negative, whole, digits, by simpa using hempty, fun c => hwhole, hdigits⟩, ?_, ?_⟩
    · rw [hsign, ← hspan, hfraction]
      simp [Numeral.text, Numeral.sign, Numeral.fractionText]
    · exact ⟨_, rfl, Decimal.isNearest_ofParts whole digits⟩

theorem number_complete {n : Numeral} {x : Binary64} (hx : n.Denotes x) {rest : List Char}
    (hrest : EndsNumeral rest) : number (n.text ++ rest) = .ok (x, rest) := by
  obtain ⟨m, rfl, hm⟩ := hx
  have hunique := hm.unique (Nat.pow_pos (by decide))
    (Decimal.isNearest_ofParts n.whole n.fraction)
  have hunread : ∀ c, (n.fractionText ++ rest).head? = some c → c.isDigit = false := by
    intro c hc
    rw [Numeral.fractionText] at hc
    split at hc
    · exact (hrest c hc).1
    · obtain rfl := Option.some.inj hc
      rfl
  have hsplit : n.text ++ rest = n.sign ++ n.whole ++ (n.fractionText ++ rest) := by
    simp [Numeral.text]
  rw [hsplit, number, takeMinus_sign_append]
  simp only [magnitude, spanDigits_append n.isDigit_whole hunread]
  rw [Numeral.fractionText, fraction_append n.isDigit_fraction hrest]
  simp [n.whole_ne_nil, hunique]

/-! ## Lists of values -/

theorem numbers_of_comma {s rest more : List Char} {x : Binary64}
    (hx : number (skipBlanks s) = .ok (x, rest)) (hmore : skipBlanks rest = ',' :: more) :
    numbers s = (numbers more).map fun (xs, rest) => (x :: xs, rest) := by
  rw [numbers]
  split
  · simp_all
  · rename_i heq
    cases hx.symm.trans heq
    split
    · rename_i heq
      cases hmore.symm.trans heq
      cases numbers more <;> rfl
    · rename_i hne
      exact absurd hmore (hne more)

theorem numbers_of_last {s rest : List Char} {x : Binary64}
    (hx : number (skipBlanks s) = .ok (x, rest)) (hlast : ∀ more, skipBlanks rest ≠ ',' :: more) :
    numbers s = .ok ([x], skipBlanks rest) := by
  rw [numbers]
  split
  · simp_all
  · rename_i heq
    cases hx.symm.trans heq
    split
    · rename_i more heq
      exact absurd heq (hlast more)
    · rfl

theorem numbers_of_fault {s : List Char} {fault : Fault}
    (hx : number (skipBlanks s) = .error fault) : numbers s = .error fault := by
  rw [numbers]
  split <;> simp_all

theorem numbers_sound {s rest : List Char} {xs : List Binary64} (h : numbers s = .ok (xs, rest)) :
    ∃ written, WritesNumbers written xs ∧ s = written ++ rest := by
  -- Each value takes at least one character, and the rest of the list is a list.
  induction hlength : s.length using Nat.strong_induction_on generalizing s xs with
  | _ length ih =>
      obtain ⟨before, hbefore, hs⟩ := exists_blanks_append_skipBlanks s
      cases hx : number (skipBlanks s) with
      | error fault =>
          rw [numbers_of_fault hx] at h
          cases h
      | ok result =>
          obtain ⟨x, unread⟩ := result
          obtain ⟨n, hn, hdenotes⟩ := number_sound hx
          obtain ⟨after, hafter, hunread⟩ := exists_blanks_append_skipBlanks unread
          have hshorter := length_number hx
          have hlength_s := congrArg List.length hs
          have hlength_unread := congrArg List.length hunread
          rw [List.length_append] at hlength_s hlength_unread
          by_cases hcomma : ∃ more, skipBlanks unread = ',' :: more
          · obtain ⟨more, hmore⟩ := hcomma
            rw [numbers_of_comma hx hmore] at h
            cases htail : numbers more with
            | error fault =>
                rw [htail] at h
                cases h
            | ok tail =>
                rw [htail] at h
                cases h
                rw [hmore, List.length_cons] at hlength_unread
                obtain ⟨written, hwritten, heq⟩ := ih more.length (by omega) htail rfl
                refine ⟨_, .comma hbefore hdenotes hafter hwritten, ?_⟩
                rw [hs, hn, hunread, hmore, heq]
                simp
          · rw [numbers_of_last hx fun more hmore => hcomma ⟨more, hmore⟩] at h
            cases h
            refine ⟨_, .last hbefore hdenotes hafter, ?_⟩
            rw [List.append_assoc, List.append_assoc, ← hunread, ← hn]
            exact hs

theorem numbers_complete {written : List Char} {xs : List Binary64}
    (h : WritesNumbers written xs) (rest : List Char) :
    numbers (written ++ '\x7d' :: rest) = .ok (xs, '\x7d' :: rest) := by
  induction h with
  | last hbefore hx hafter =>
      rename_i before after n x
      have hnumber := number_complete hx
        (endsNumeral_append_cons hafter (c := '\x7d') (by decide) (by decide) rest)
      rw [← skipBlanks_append_eq hbefore (n.no_leading_blank _)] at hnumber
      have hafter := skipBlanks_append_cons hafter (c := '\x7d') (by decide) rest
      rw [List.append_assoc, List.append_assoc, numbers_of_last hnumber, hafter]
      rw [hafter]
      simp
  | comma hbefore hx hafter _ ih =>
      rename_i before after tail n x xs _
      have hnumber := number_complete hx
        (endsNumeral_append_cons hafter (c := ',') (by decide) (by decide) (tail ++ '\x7d' :: rest))
      rw [← skipBlanks_append_eq hbefore (n.no_leading_blank _)] at hnumber
      have hafter := skipBlanks_append_cons hafter (c := ',') (by decide) (tail ++ '\x7d' :: rest)
      simp only [List.append_assoc, List.cons_append]
      rw [numbers_of_comma hnumber hafter, ih]
      rfl

theorem valuesBody_sound {s rest : List Char} {c : Condition}
    (h : valuesBody s = .ok (c, rest)) :
    ∃ written, Writes ('\x7b' :: written) c ∧ s = written ++ rest := by
  unfold valuesBody at h
  split at h
  · cases h
  · rename_i heq
    cases h
    obtain ⟨written, hwritten, hs⟩ := numbers_sound heq
    exact ⟨written ++ ['\x7d'], .values hwritten, by simp [hs]⟩
  · cases h

theorem valuesBody_complete {written : List Char} {xs : List Binary64}
    (h : WritesNumbers written xs) (rest : List Char) :
    valuesBody (written ++ '\x7d' :: rest) = .ok (.values xs, rest) := by
  rw [valuesBody, numbers_complete h rest]
  rfl

/-! ## Intervals -/

theorem lowerBound_sound {s rest : List Char} {x : Binary64} (h : lowerBound s = .ok (x, rest)) :
    ∃ written, WritesLower written x ∧ s = written ++ rest := by
  unfold lowerBound at h
  split at h
  · cases h
    exact ⟨_, .infinity, rfl⟩
  · obtain ⟨n, hs, hx⟩ := number_sound h
    exact ⟨n.text, .numeral hx, hs⟩

theorem upperBound_sound {s rest : List Char} {x : Binary64} (h : upperBound s = .ok (x, rest)) :
    ∃ written, WritesUpper written x ∧ s = written ++ rest := by
  unfold upperBound at h
  split at h
  · cases h
    exact ⟨_, .plusInfinity, rfl⟩
  · cases h
    exact ⟨_, .infinity, rfl⟩
  · obtain ⟨n, hs, hx⟩ := number_sound h
    exact ⟨n.text, .numeral hx, hs⟩

theorem lowerBound_complete {written : List Char} {x : Binary64} (h : WritesLower written x)
    {rest : List Char} (hrest : EndsNumeral rest) :
    lowerBound (written ++ rest) = .ok (x, rest) := by
  cases h with
  | infinity => rfl
  | @numeral n _ hx =>
      rw [← number_complete hx hrest]
      unfold lowerBound
      split
      · rename_i word heq
        -- No digit stands where the word has its letter.
        obtain ⟨digit, tail, hdigit, hfirst | hfirst⟩ := n.text_append rest
        · rw [heq] at hfirst
          cases hfirst
          cases hdigit
        · rw [heq] at hfirst
          cases hfirst
          cases hdigit
      · rfl

theorem upperBound_complete {written : List Char} {x : Binary64} (h : WritesUpper written x)
    {rest : List Char} (hrest : EndsNumeral rest) :
    upperBound (written ++ rest) = .ok (x, rest) := by
  cases h with
  | infinity => rfl
  | plusInfinity => rfl
  | @numeral n _ hx =>
      rw [← number_complete hx hrest]
      obtain ⟨digit, tail, hdigit, hfirst⟩ := n.text_append rest
      unfold upperBound
      split
      · rename_i word heq
        rw [heq] at hfirst
        rcases hfirst with hfirst | hfirst <;> cases hfirst
        cases hdigit
      · rename_i word heq
        rw [heq] at hfirst
        rcases hfirst with hfirst | hfirst <;> cases hfirst
        cases hdigit
      · rfl

theorem WritesLower.no_leading_blank {written : List Char} {x : Binary64}
    (h : WritesLower written x) (rest : List Char) : HasNoLeadingBlank (written ++ rest) := by
  cases h with
  | infinity => rintro c ⟨⟩; rfl
  | @numeral n _ hx => exact n.no_leading_blank rest

theorem WritesUpper.no_leading_blank {written : List Char} {x : Binary64}
    (h : WritesUpper written x) (rest : List Char) : HasNoLeadingBlank (written ++ rest) := by
  cases h with
  | infinity => rintro c ⟨⟩; rfl
  | plusInfinity => rintro c ⟨⟩; rfl
  | @numeral n _ hx => exact n.no_leading_blank rest

theorem intervalBody_sound {includesLower : Bool} {s rest : List Char} {c : Condition}
    (h : intervalBody includesLower s = .ok (c, rest)) :
    ∃ written, Writes (openingBracket includesLower :: written) c ∧ s = written ++ rest := by
  unfold intervalBody at h
  obtain ⟨b₁, hb₁, hs⟩ := exists_blanks_append_skipBlanks s
  split at h
  · cases h
  rename_i lower afterLower heq
  obtain ⟨l, hl, hlower⟩ := lowerBound_sound heq
  obtain ⟨b₂, hb₂, hafterLower⟩ := exists_blanks_append_skipBlanks afterLower
  split at h
  · rename_i afterComma hcomma
    obtain ⟨b₃, hb₃, hafterComma⟩ := exists_blanks_append_skipBlanks afterComma
    split at h
    · cases h
    rename_i upper afterUpper heq
    obtain ⟨r, hr, hupper⟩ := upperBound_sound heq
    obtain ⟨b₄, hb₄, hafterUpper⟩ := exists_blanks_append_skipBlanks afterUpper
    have hsplit : ∀ includesUpper, skipBlanks afterUpper = closingBracket includesUpper :: rest →
        s = (b₁ ++ l ++ b₂ ++ ',' :: b₃ ++ r ++ b₄ ++ [closingBracket includesUpper]) ++ rest := by
      intro includesUpper hclosing
      rw [hs, hlower, hafterLower, hcomma, hafterComma, hupper, hafterUpper, hclosing]
      simp
    have hwrites := fun includesUpper =>
      @Writes.interval b₁ l b₂ b₃ r b₄ ⟨lower, upper, includesLower, includesUpper⟩
        hb₁ hl hb₂ hb₃ hr hb₄
    split at h
    · rename_i hclosing
      cases h
      exact ⟨_, hwrites true, hsplit true hclosing⟩
    · rename_i hclosing
      cases h
      exact ⟨_, hwrites false, hsplit false hclosing⟩
    · cases h
  · cases h

theorem intervalBody_of_bounds {s afterLower afterComma afterUpper rest : List Char}
    {range : Interval} (hlower : lowerBound (skipBlanks s) = .ok (range.lower, afterLower))
    (hcomma : skipBlanks afterLower = ',' :: afterComma)
    (hupper : upperBound (skipBlanks afterComma) = .ok (range.upper, afterUpper))
    (hclosing : skipBlanks afterUpper = closingBracket range.includesUpper :: rest) :
    intervalBody range.includesLower s = .ok (.interval range, rest) := by
  obtain ⟨lower, upper, includesLower, includesUpper⟩ := range
  cases includesUpper <;> simp_all [intervalBody, closingBracket]

theorem intervalBody_complete {b₁ l b₂ b₃ r b₄ : List Char} {range : Interval}
    (hb₁ : IsBlanks b₁) (hl : WritesLower l range.lower) (hb₂ : IsBlanks b₂)
    (hb₃ : IsBlanks b₃) (hr : WritesUpper r range.upper) (hb₄ : IsBlanks b₄) (rest : List Char) :
    intervalBody range.includesLower (b₁ ++ (l ++ (b₂ ++ ',' :: (b₃ ++ (r ++ (b₄ ++
      closingBracket range.includesUpper :: rest)))))) = .ok (.interval range, rest) := by
  have hclosing : isAsciiBlank (closingBracket range.includesUpper) = false ∧
      (closingBracket range.includesUpper).isDigit = false ∧
      closingBracket range.includesUpper ≠ '.' := by
    cases range.includesUpper <;> decide
  have hend := endsNumeral_append_cons hb₄ hclosing.2.1 hclosing.2.2 rest
  have hcomma : EndsNumeral (b₂ ++ ',' :: (b₃ ++ (r ++ (b₄ ++
      closingBracket range.includesUpper :: rest)))) :=
    endsNumeral_append_cons hb₂ (by decide) (by decide) _
  have hlower := lowerBound_complete hl hcomma
  rw [← skipBlanks_append_eq hb₁ (hl.no_leading_blank _)] at hlower
  have hupper := upperBound_complete hr hend
  rw [← skipBlanks_append_eq hb₃ (hr.no_leading_blank _)] at hupper
  exact intervalBody_of_bounds hlower (skipBlanks_append_cons hb₂ (by decide) _) hupper
    (skipBlanks_append_cons hb₄ hclosing.1 _)

/-! ## Fragments -/

theorem Writes.exists_cons {written : List Char} {c : Condition} (h : Writes written c) :
    ∃ first rest, written = first :: rest ∧ (first = '\x7b' ∨ first = '[' ∨ first = ']') := by
  cases h with
  | values => exact ⟨_, _, rfl, Or.inl rfl⟩
  | @interval b₁ l b₂ b₃ r b₄ range =>
      refine ⟨_, _, rfl, Or.inr ?_⟩
      cases range.includesLower
      · exact Or.inr rfl
      · exact Or.inl rfl

theorem Writes.no_leading_blank {written : List Char} {c : Condition} (h : Writes written c)
    (rest : List Char) : HasNoLeadingBlank (written ++ rest) := by
  obtain ⟨first, tail, rfl, hfirst⟩ := h.exists_cons
  intro c hc
  obtain rfl := Option.some.inj hc
  rcases hfirst with rfl | rfl | rfl <;> rfl

theorem body_sound {s rest : List Char} {c : Condition} (h : body s = some (.ok (c, rest))) :
    ∃ written, Writes written c ∧ s = written ++ rest := by
  unfold body at h
  split at h
  · obtain ⟨written, hwritten, rfl⟩ := valuesBody_sound (Option.some.inj h)
    exact ⟨_, hwritten, rfl⟩
  · obtain ⟨written, hwritten, rfl⟩ := intervalBody_sound (Option.some.inj h)
    exact ⟨_, hwritten, rfl⟩
  · obtain ⟨written, hwritten, rfl⟩ := intervalBody_sound (Option.some.inj h)
    exact ⟨_, hwritten, rfl⟩
  · cases h

theorem body_complete {written : List Char} {c : Condition} (h : Writes written c)
    (rest : List Char) : body (written ++ rest) = some (.ok (c, rest)) := by
  cases h with
  | values hs =>
      have hread := valuesBody_complete hs rest
      simp only [List.append_assoc, List.cons_append, List.nil_append]
      exact congrArg some hread
  | @interval b₁ l b₂ b₃ r b₄ range hb₁ hl hb₂ hb₃ hr hb₄ =>
      have hread := intervalBody_complete hb₁ hl hb₂ hb₃ hr hb₄ rest
      simp only [List.append_assoc, List.cons_append, List.nil_append]
      cases hlower : range.includesLower with
      | true =>
          rw [hlower] at hread
          exact congrArg some hread
      | false =>
          rw [hlower] at hread
          exact congrArg some hread

theorem body_eq_none_iff (s : List Char) :
    body s = none ↔ ∀ c, s.head? = some c → ¬ (c = '\x7b' ∨ c = '[' ∨ c = ']') := by
  unfold body
  split
  · simp
  · simp
  · simp
  · rename_i hvalues hopen hclose
    refine ⟨fun _ c hc => ?_, fun _ => rfl⟩
    obtain ⟨rest, rfl⟩ := List.head?_eq_some_iff.mp hc
    rintro (rfl | rfl | rfl)
    · exact hvalues rest rfl
    · exact hopen rest rfl
    · exact hclose rest rfl

theorem read_eq_ok_iff (fragment text : List Char) (c : Condition) :
    read fragment = .ok (c, text) ↔
      ∃ rest, body (skipBlanks fragment) = some (.ok (c, rest)) ∧ text = skipBlanks rest := by
  unfold read
  split
  · rename_i hbody
    simp [hbody]
  · rename_i hbody
    simp [hbody]
  · rename_i hbody
    simp [hbody, eq_comm]

theorem read_eq_noCondition_iff (fragment : List Char) :
    read fragment = .error .noCondition ↔ body (skipBlanks fragment) = none := by
  unfold read
  split
  · rename_i hbody
    simp [hbody]
  · rename_i hbody
    simp [hbody]
  · rename_i hbody
    simp [hbody]

theorem opensCondition_iff (fragment : List Char) :
    OpensCondition fragment ↔ body (skipBlanks fragment) ≠ none := by
  have hhead : fragment.find? (fun c => !isAsciiBlank c) = (skipBlanks fragment).head? := by
    rw [List.find?_eq_head?_dropWhile_not, skipBlanks]
    simp
  rw [Ne, body_eq_none_iff, OpensCondition, hhead]
  push Not
  rfl

namespace Split

variable {fragment : List Char}

theorem skipBlanks_eq (s : Split fragment) :
    skipBlanks fragment = s.written ++ (s.after ++ s.text) := by
  conv_lhs => rw [← s.append_eq]
  rw [List.append_assoc, List.append_assoc]
  exact skipBlanks_append_eq s.isBlanks_before (s.writes.no_leading_blank _)

theorem body_eq (s : Split fragment) :
    body (skipBlanks fragment) = some (.ok (s.condition, s.after ++ s.text)) := by
  rw [s.skipBlanks_eq]
  exact body_complete s.writes _

theorem read_eq (s : Split fragment) : read fragment = .ok (s.condition, s.text) := by
  rw [read_eq_ok_iff]
  exact ⟨_, s.body_eq, (skipBlanks_append_eq s.isBlanks_after s.text_no_leading_blank).symm⟩

theorem exists_of_read {text : List Char} {c : Condition} (h : read fragment = .ok (c, text)) :
    ∃ s : Split fragment, s.condition = c ∧ s.text = text := by
  obtain ⟨rest, hbody, rfl⟩ := (read_eq_ok_iff ..).mp h
  obtain ⟨written, hwritten, hskip⟩ := body_sound hbody
  obtain ⟨before, hbefore, hfragment⟩ := exists_blanks_append_skipBlanks fragment
  obtain ⟨after, hafter, hrest⟩ := exists_blanks_append_skipBlanks rest
  have happend : before ++ written ++ after ++ skipBlanks rest = fragment := by
    rw [List.append_assoc, ← hrest, List.append_assoc, ← hskip, ← hfragment]
  exact ⟨⟨before, written, after, skipBlanks rest, c, happend, hbefore, hwritten, hafter,
    no_leading_blank_skipBlanks rest⟩, rfl, rfl⟩

/-- Conditions are read off the front, so two splits end their conditions in one place. -/
theorem unique (s t : Split fragment) : s = t := by
  have hread := s.read_eq.symm.trans t.read_eq
  have hbody := s.body_eq.symm.trans t.body_eq
  have hskip := s.skipBlanks_eq.symm.trans t.skipBlanks_eq
  have hfragment := s.append_eq.trans t.append_eq.symm
  obtain ⟨before, written, after, text, c, _, _, _, _, _⟩ := s
  obtain ⟨before', written', after', text', c', _, _, _, _, _⟩ := t
  simp only [Except.ok.injEq, Prod.mk.injEq, Option.some.injEq] at hread hbody
  obtain ⟨rfl, rfl⟩ := hread
  obtain rfl := List.append_cancel_right hbody.2
  obtain rfl := List.append_cancel_right hskip
  simp only [List.append_assoc] at hfragment
  obtain rfl := List.append_cancel_right hfragment
  rfl

def withText (s : Split fragment) (text : List Char) (h : HasNoLeadingBlank text) :
    Split (s.before ++ s.written ++ s.after ++ text) :=
  { s with text, append_eq := rfl, text_no_leading_blank := h }

end Split

theorem parse_eq_ok_iff (fragment text : String) (c : Condition) :
    parse fragment = .ok (c, text) ↔ read fragment.toList = .ok (c, text.toList) := by
  unfold parse
  cases read fragment.toList with
  | error e => simp [Except.map]
  | ok result =>
      obtain ⟨c', rest⟩ := result
      simp only [Except.map, Except.ok.injEq, Prod.mk.injEq, and_congr_right_iff]
      rintro -
      rw [← String.toList_inj, String.toList_ofList]

theorem parse_eq_error_iff (fragment : String) (e : ReadError) :
    parse fragment = .error e ↔ read fragment.toList = .error e := by
  unfold parse
  cases read fragment.toList <;> simp [Except.map]

/-- A fragment is read as a condition and a text exactly if it splits into these. One that does not
split has no condition if its first character that is not blank opens none, and else it is
malformed. There is at most one split, and its condition is the same with any other text. -/
theorem parse_iff_split (fragment : String) :
    (∀ c text, parse fragment = .ok (c, text) ↔
      ∃ s : Split fragment.toList, s.condition = c ∧ s.text = text.toList) ∧
    (IsEmpty (Split fragment.toList) →
      (parse fragment = .error .noCondition ↔ ¬ OpensCondition fragment.toList) ∧
      ((∃ offset expected, parse fragment = .error (.malformed offset expected)) ↔
        OpensCondition fragment.toList)) ∧
    (∀ s t : Split fragment.toList, s = t) ∧
    ∀ (s : Split fragment.toList) (text : String), HasNoLeadingBlank text.toList →
      parse (String.ofList (s.before ++ s.written ++ s.after ++ text.toList)) =
        .ok (s.condition, text) := by
  refine ⟨fun c text => ?_, fun hempty => ?_, Split.unique, fun s text htext => ?_⟩
  · rw [parse_eq_ok_iff]
    constructor
    · exact Split.exists_of_read
    · rintro ⟨s, rfl, htext⟩
      rw [← htext]
      exact s.read_eq
  · have hnone : parse fragment = .error .noCondition ↔ ¬ OpensCondition fragment.toList := by
      rw [parse_eq_error_iff, read_eq_noCondition_iff, opensCondition_iff, not_not]
    refine ⟨hnone, ?_⟩
    constructor
    · rintro ⟨offset, expected, hmalformed⟩
      by_contra hopens
      cases hmalformed.symm.trans (hnone.mpr hopens)
    · intro hopens
      cases hparse : parse fragment with
      | ok result =>
          obtain ⟨s, -, -⟩ := Split.exists_of_read ((parse_eq_ok_iff ..).mp hparse)
          exact hempty.elim s
      | error e =>
          cases e with
          | noCondition => exact absurd hopens (hnone.mp hparse)
          | malformed offset expected => exact ⟨offset, expected, rfl⟩
  · rw [parse_eq_ok_iff, String.toList_ofList]
    exact (s.withText text.toList htext).read_eq

/-- Bounds in each other's place do not split; in their own they do, with any text behind them. -/
theorem parse_infinite_bounds :
    IsEmpty (Split "[+Inf,-Inf]x".toList) ∧
    (∃ offset expected, parse "[+Inf,-Inf]x" = .error (.malformed offset expected)) ∧
    ∃ s : Split " ]-Inf, 2.50[ x".toList,
      s.condition = .interval ⟨.negativeInfinity, .signed false (.ofRatio 5 2), false, false⟩ ∧
      HasNoLeadingBlank "|y".toList ∧
      parse (String.ofList (s.before ++ s.written ++ s.after ++ "|y".toList)) =
        .ok (s.condition, "|y") := by
  have hmalformed : parse "[+Inf,-Inf]x" = .error (.malformed 1 .number) := by decide +kernel
  have hempty : IsEmpty (Split "[+Inf,-Inf]x".toList) := by
    constructor
    intro s
    have hparse := ((parse_iff_split "[+Inf,-Inf]x").1 s.condition (String.ofList s.text)).mpr
      ⟨s, rfl, String.toList_ofList.symm⟩
    cases hmalformed.symm.trans hparse
  have hread : parse " ]-Inf, 2.50[ x" =
      .ok (.interval ⟨.negativeInfinity, .signed false (.ofRatio 5 2), false, false⟩, "x") := by
    decide +kernel
  obtain ⟨s, hcondition, -⟩ := ((parse_iff_split " ]-Inf, 2.50[ x").1 _ _).mp hread
  have htext : HasNoLeadingBlank "|y".toList := by
    rintro c ⟨⟩
    rfl
  refine ⟨hempty, ?_, s, hcondition, htext, (parse_iff_split _).2.2.2 s "|y" htext⟩
  rw [((parse_iff_split "[+Inf,-Inf]x").2.1 hempty).2]
  exact ⟨'[', rfl, Or.inr (Or.inl rfl)⟩

end Condition

end Phrasebook
