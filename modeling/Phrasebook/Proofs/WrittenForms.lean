import Phrasebook.Proofs.UnwritableConditions

/-!
# Numerals that are out of range

What is written in a condition is a list of numerals, or two bounds of which each is a numeral or a
word for the infinity on its side. A numeral with too large a value is no error: it is read as an
infinity, on either side and among listed values too, where no word could have put one.
-/

namespace Phrasebook.Condition

open Number Text

namespace Numeral

def value (n : Numeral) : Binary64 :=
  .signed n.negative (Decimal.ofParts n.whole n.fraction 0).toMagnitude

/-- Without its sign the numeral is at least half-way from the largest finite number to the one that
would come next. -/
def IsOutOfRange (n : Numeral) : Prop :=
  overflow * 10 ^ n.fraction.length ≤ ofDecimalDigits (n.whole ++ n.fraction)

theorem denotes_value (n : Numeral) : n.Denotes n.value :=
  ⟨_, rfl, Decimal.isNearest_ofParts n.whole n.fraction⟩

theorem Denotes.eq_value {n : Numeral} {x : Binary64} (h : n.Denotes x) : x = n.value := by
  obtain ⟨m, rfl, hm⟩ := h
  rw [value, hm.unique (Nat.pow_pos (by decide)) (Decimal.isNearest_ofParts n.whole n.fraction)]

theorem value_eq_infinity_iff (n : Numeral) (negative : Bool) :
    n.value = .signed negative .infinity ↔ n.IsOutOfRange ∧ n.negative = negative := by
  have hnearest := Decimal.isNearest_ofParts n.whole n.fraction
  rw [value, Binary64.signed.injEq, hnearest.eq_infinity_iff (Nat.pow_pos (by decide)), and_comm,
    IsOutOfRange]

theorem isFinite_value_iff (n : Numeral) : n.value.isFinite = true ↔ ¬ n.IsOutOfRange := by
  have hinfinite : n.value = .signed n.negative .infinity ↔ n.IsOutOfRange := by
    rw [value_eq_infinity_iff, and_iff_left rfl]
  rw [← hinfinite, value, Binary64.signed.injEq, and_iff_right rfl, ← Magnitude.isInfinite_iff]
  simp [Binary64.isFinite]

end Numeral

/-! ## Forms -/

/-- What is written in a condition, blanks aside. A bound without a numeral is a word for the
infinity on its side. -/
inductive Form where
  | values (numerals : List Numeral)
  | interval (lower upper : Option Numeral) (includesLower includesUpper : Bool)

namespace Form

def numerals : Form → List Numeral
  | values numerals => numerals
  | interval lower upper _ _ => lower.toList ++ upper.toList

/-- The number of a bound; a word stands for the given infinity. -/
def bound (word : Binary64) (numeral : Option Numeral) : Binary64 :=
  (numeral.map Numeral.value).getD word

def condition : Form → Condition
  | values numerals => .values (numerals.map Numeral.value)
  | interval lower upper includesLower includesUpper =>
    .interval ⟨bound .negativeInfinity lower, bound .infinity upper, includesLower, includesUpper⟩

/-- No listed numeral is out of range, and a bound that is out of range has the infinity for which
its side has a word. -/
def IsPrintable : Form → Prop
  | values numerals => ∀ n ∈ numerals, ¬ n.IsOutOfRange
  | interval lower upper _ _ =>
    (∀ n ∈ lower, n.IsOutOfRange → n.negative = true) ∧
      (∀ n ∈ upper, n.IsOutOfRange → n.negative = false)

end Form

inductive SpellsNumerals : List Char → List Numeral → Prop where
  | last {before after : List Char} {n : Numeral} :
      IsBlanks before → IsBlanks after → SpellsNumerals (before ++ n.text ++ after) [n]
  | comma {before after rest : List Char} {n : Numeral} {ns : List Numeral} :
      IsBlanks before → IsBlanks after → SpellsNumerals rest ns →
      SpellsNumerals (before ++ n.text ++ after ++ ',' :: rest) (n :: ns)

inductive SpellsLower : List Char → Option Numeral → Prop where
  | numeral (n : Numeral) : SpellsLower n.text (some n)
  | infinity : SpellsLower ['-', 'I', 'n', 'f'] none

inductive SpellsUpper : List Char → Option Numeral → Prop where
  | numeral (n : Numeral) : SpellsUpper n.text (some n)
  | infinity : SpellsUpper ['I', 'n', 'f'] none
  | plusInfinity : SpellsUpper ['+', 'I', 'n', 'f'] none

inductive Spells : List Char → Form → Prop where
  | values {s : List Char} {ns : List Numeral} :
      SpellsNumerals s ns → Spells ('\x7b' :: s ++ ['\x7d']) (.values ns)
  | interval {b₁ l b₂ b₃ r b₄ : List Char} {lower upper : Option Numeral}
      {includesLower includesUpper : Bool} :
      IsBlanks b₁ → SpellsLower l lower → IsBlanks b₂ →
      IsBlanks b₃ → SpellsUpper r upper → IsBlanks b₄ →
      Spells (openingBracket includesLower :: b₁ ++ l ++ b₂ ++ ',' :: b₃ ++ r ++ b₄ ++
        [closingBracket includesUpper]) (.interval lower upper includesLower includesUpper)

theorem SpellsNumerals.writes {s : List Char} {ns : List Numeral} (h : SpellsNumerals s ns) :
    WritesNumbers s (ns.map Numeral.value) := by
  induction h with
  | last hbefore hafter => exact .last hbefore (Numeral.denotes_value _) hafter
  | comma hbefore hafter _ ih => exact .comma hbefore (Numeral.denotes_value _) hafter ih

theorem SpellsLower.writes {l : List Char} {lower : Option Numeral} (h : SpellsLower l lower) :
    WritesLower l (Form.bound .negativeInfinity lower) := by
  cases h with
  | numeral n => exact .numeral n.denotes_value
  | infinity => exact .infinity

theorem SpellsUpper.writes {r : List Char} {upper : Option Numeral} (h : SpellsUpper r upper) :
    WritesUpper r (Form.bound .infinity upper) := by
  cases h with
  | numeral n => exact .numeral n.denotes_value
  | infinity => exact .infinity
  | plusInfinity => exact .plusInfinity

theorem Spells.writes {s : List Char} {form : Form} (h : Spells s form) :
    Writes s form.condition := by
  cases h with
  | values hs => exact .values hs.writes
  | @interval b₁ l b₂ b₃ r b₄ lower upper includesLower includesUpper hb₁ hl hb₂ hb₃ hr hb₄ =>
      exact @Writes.interval b₁ l b₂ b₃ r b₄
        ⟨Form.bound .negativeInfinity lower, Form.bound .infinity upper, includesLower,
          includesUpper⟩ hb₁ hl.writes hb₂ hb₃ hr.writes hb₄

theorem WritesNumbers.exists_spells {s : List Char} {xs : List Binary64}
    (h : WritesNumbers s xs) : ∃ ns, SpellsNumerals s ns ∧ ns.map Numeral.value = xs := by
  induction h with
  | last hbefore hx hafter =>
      rename_i before after n x
      exact ⟨[n], .last hbefore hafter, by rw [hx.eq_value]; rfl⟩
  | comma hbefore hx hafter _ ih =>
      rename_i before after rest n x xs _
      obtain ⟨ns, hns, rfl⟩ := ih
      exact ⟨n :: ns, .comma hbefore hafter hns, by rw [hx.eq_value]; rfl⟩

theorem WritesLower.exists_spells {l : List Char} {x : Binary64} (h : WritesLower l x) :
    ∃ lower, SpellsLower l lower ∧ Form.bound .negativeInfinity lower = x := by
  cases h with
  | @numeral n _ hx => exact ⟨some n, .numeral n, hx.eq_value.symm⟩
  | infinity => exact ⟨none, .infinity, rfl⟩

theorem WritesUpper.exists_spells {r : List Char} {x : Binary64} (h : WritesUpper r x) :
    ∃ upper, SpellsUpper r upper ∧ Form.bound .infinity upper = x := by
  cases h with
  | @numeral n _ hx => exact ⟨some n, .numeral n, hx.eq_value.symm⟩
  | infinity => exact ⟨none, .infinity, rfl⟩
  | plusInfinity => exact ⟨none, .plusInfinity, rfl⟩

theorem Writes.exists_spells {s : List Char} {c : Condition} (h : Writes s c) :
    ∃ form, Spells s form ∧ form.condition = c := by
  cases h with
  | values hs =>
      obtain ⟨ns, hns, rfl⟩ := hs.exists_spells
      exact ⟨.values ns, .values hns, rfl⟩
  | @interval b₁ l b₂ b₃ r b₄ range hb₁ hl hb₂ hb₃ hr hb₄ =>
      obtain ⟨lower, hlower, hx⟩ := hl.exists_spells
      obtain ⟨upper, hupper, hy⟩ := hr.exists_spells
      refine ⟨.interval lower upper range.includesLower range.includesUpper,
        .interval hb₁ hlower hb₂ hb₃ hupper hb₄, ?_⟩
      rw [Form.condition, hx, hy]

theorem SpellsNumerals.ne_nil {s : List Char} {ns : List Numeral} (h : SpellsNumerals s ns) :
    ns ≠ [] := by
  cases h with
  | last => exact List.cons_ne_nil _ _
  | comma => exact List.cons_ne_nil _ _

/-! ## Bounds and printing -/

namespace Form

variable (negative : Bool) (numeral : Option Numeral)

theorem bound_eq_word_iff :
    bound (.signed negative .infinity) numeral = .signed negative .infinity ↔
      ∀ n ∈ numeral, n.IsOutOfRange ∧ n.negative = negative := by
  cases numeral with
  | none => simp [bound]
  | some n => simp [bound, n.value_eq_infinity_iff]

theorem isFinite_bound_or_eq_word_iff :
    ((bound (.signed negative .infinity) numeral).isFinite = true ∨
        bound (.signed negative .infinity) numeral = .signed negative .infinity) ↔
      ∀ n ∈ numeral, n.IsOutOfRange → n.negative = negative := by
  rw [bound_eq_word_iff]
  cases numeral with
  | none => simp
  | some n =>
      simp only [bound, Option.map_some, Option.getD_some, n.isFinite_value_iff, Option.mem_def,
        Option.some.injEq, forall_eq']
      generalize n.IsOutOfRange = outOfRange
      tauto

end Form

/-- Each word is for the infinity of one side, and listed values have no words. -/
theorem Spells.isWritable_iff {s : List Char} {form : Form} (h : Spells s form) :
    form.condition.IsWritable ↔ form.IsPrintable := by
  cases h with
  | @values _ ns hs =>
      have hne : ns.map Numeral.value ≠ [] := by simpa using hs.ne_nil
      simp only [Form.condition, IsWritable, Form.IsPrintable, hne, List.forall_mem_map,
        Numeral.isFinite_value_iff, ne_eq, not_false_eq_true, true_and]
  | interval =>
      exact and_congr (Form.isFinite_bound_or_eq_word_iff true _)
        (Form.isFinite_bound_or_eq_word_iff false _)

/-- A condition is read whatever the values of its numerals are. The numbers it holds are infinite
exactly where a numeral is out of range or a word stands, and what is printed for it is a condition
again exactly if every infinity has a word at its place. -/
theorem parse_numerals_out_of_range (fragment : String) :
    (∀ (written : List Char) (form : Form) (text : String), Spells written form →
      fragment = String.ofList written ++ text →
      parse fragment = .ok (form.condition, String.ofList (skipBlanks text.toList))) ∧
    ∀ (text : String) (c : Condition), parse fragment = .ok (c, text) →
      ∃ (s : Split fragment.toList) (form : Form),
        Spells s.written form ∧ form.condition = c ∧
        (∀ n ∈ form.numerals, n.value.isFinite = true ↔ ¬ n.IsOutOfRange) ∧
        (∀ range, c = .interval range → ∃ lower upper,
          form = .interval lower upper range.includesLower range.includesUpper ∧
          (range.lower = .negativeInfinity ↔
            ∀ n ∈ lower, n.IsOutOfRange ∧ n.negative = true) ∧
          (range.upper = .infinity ↔ ∀ n ∈ upper, n.IsOutOfRange ∧ n.negative = false)) ∧
        ((∃ result, parse c.render = .ok result) ↔ form.IsPrintable) := by
  constructor
  · rintro written form text h rfl
    exact parse_append_of_writes h.writes text
  intro text c h
  obtain ⟨s, rfl, -⟩ := Split.exists_of_read ((parse_eq_ok_iff ..).mp h)
  obtain ⟨form, hform, hcondition⟩ := s.writes.exists_spells
  refine ⟨s, form, hform, hcondition, fun n _ => n.isFinite_value_iff, ?_, ?_⟩
  · intro range hrange
    rw [← hcondition] at hrange
    cases form with
    | values ns => cases hrange
    | interval lower upper includesLower includesUpper =>
        cases hrange
        exact ⟨lower, upper, rfl, Form.bound_eq_word_iff true lower,
          Form.bound_eq_word_iff false upper⟩
  · rw [parse_render_isOk_iff, ← hcondition]
    exact hform.isWritable_iff

def nines : Numeral where
  negative := false
  whole := List.replicate 309 '9'
  fraction := []
  whole_ne_nil := by decide
  isDigit_whole := fun c hc => by
    rw [(List.mem_replicate.mp hc).2]
    rfl
  isDigit_fraction := nofun

/-- The nines are no error. They are read as infinity, which has no word among listed values. -/
theorem parse_nines :
    let fragment := String.ofList ('\x7b' :: nines.text ++ ['\x7d'])
    Spells fragment.toList (.values [nines]) ∧ nines.IsOutOfRange ∧
    parse (fragment ++ " x") = .ok (values [.infinity], "x") ∧
    (values [.infinity]).render = "{inf}" ∧ ¬ ∃ result, parse "{inf}" = .ok result := by
  intro fragment
  have hspells : Spells fragment.toList (.values [nines]) := by
    have hnines := Spells.values (@SpellsNumerals.last [] [] nines isBlanks_nil isBlanks_nil)
    simpa [fragment] using hnines
  have hrange : nines.IsOutOfRange := by
    unfold Numeral.IsOutOfRange
    decide +kernel
  have hvalue : nines.value = .infinity :=
    (nines.value_eq_infinity_iff false).mpr ⟨hrange, rfl⟩
  have hcondition : (Form.values [nines]).condition = values [.infinity] := by
    rw [Form.condition, List.map_singleton, hvalue]
  obtain ⟨hread, hprint⟩ := parse_numerals_out_of_range (fragment ++ " x")
  have hparse := hread fragment.toList (.values [nines]) " x" hspells
    (by rw [String.ofList_toList])
  rw [hcondition] at hparse
  have hrender : (values [.infinity]).render = "{inf}" := by decide +kernel
  refine ⟨hspells, hrange, hparse, hrender, fun hreadable => ?_⟩
  obtain ⟨s, form, -, hform, hfinite, -, hprintable⟩ := hprint _ _ hparse
  rw [hrender] at hprintable
  have hprintable := hprintable.mp hreadable
  cases form with
  | interval => cases hform
  | values ns =>
      obtain ⟨n, rfl, hn⟩ := List.map_eq_singleton_iff.mp (Condition.values.inj hform)
      have hmem : n ∈ [n] := List.mem_singleton_self n
      have hn' := (hfinite n hmem).mpr (hprintable n hmem)
      rw [hn] at hn'
      cases hn'

end Phrasebook.Condition
