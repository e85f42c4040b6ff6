import Mathlib.Data.List.TakeWhile
import Phrasebook.Condition.Reader
import Phrasebook.Proofs.NearestMagnitudes

/-!
# The grammar of conditions

The written form of a condition, said without the reader:

* a numeral `N` is `-?[0-9]+(\.[0-9]+)?`,
* a list of values is `{ ws* N ws* (, ws* N ws*)* }`,
* an interval is `D ws* L ws* , ws* R ws* E`, where `D` and `E` are brackets, `L` is a numeral or
  `-Inf`, and `R` is a numeral or `Inf` or `+Inf`.

A fragment with a condition is split into blanks, the condition, blanks and the text.
-/

namespace Phrasebook

namespace Text

def IsBlanks (s : List Char) : Prop := ∀ c ∈ s, isAsciiBlank c = true

theorem isBlanks_nil : IsBlanks [] := nofun

def HasNoLeadingBlank (s : List Char) : Prop := ∀ c, s.head? = some c → isAsciiBlank c = false

theorem skipBlanks_append {blanks : List Char} (h : IsBlanks blanks) (s : List Char) :
    skipBlanks (blanks ++ s) = skipBlanks s :=
  List.dropWhile_append_of_pos h

theorem skipBlanks_of_no_leading_blank {s : List Char} (h : HasNoLeadingBlank s) :
    skipBlanks s = s := by
  cases s with
  | nil => rfl
  | cons c s => exact List.dropWhile_cons_of_neg (by simp [h c rfl])

theorem no_leading_blank_skipBlanks (s : List Char) : HasNoLeadingBlank (skipBlanks s) := by
  intro c hc
  have hhead := List.head?_dropWhile_not isAsciiBlank s
  simp only [skipBlanks] at hc
  rw [hc] at hhead
  simpa using hhead

theorem exists_blanks_append_skipBlanks (s : List Char) :
    ∃ blanks, IsBlanks blanks ∧ s = blanks ++ skipBlanks s :=
  ⟨s.takeWhile isAsciiBlank, fun _ => List.mem_takeWhile_imp,
    List.takeWhile_append_dropWhile.symm⟩

theorem skipBlanks_append_eq {blanks s : List Char} (h : IsBlanks blanks)
    (hs : HasNoLeadingBlank s) : skipBlanks (blanks ++ s) = s := by
  rw [skipBlanks_append h, skipBlanks_of_no_leading_blank hs]

theorem skipBlanks_append_cons {blanks : List Char} (h : IsBlanks blanks) {c : Char}
    (hc : isAsciiBlank c = false) (s : List Char) : skipBlanks (blanks ++ c :: s) = c :: s := by
  apply skipBlanks_append_eq h
  intro first hfirst
  obtain rfl := Option.some.inj hfirst
  exact hc

end Text

namespace Condition

open Number Text

/-- An optional minus, digits, and a point with digits after it if there are some. -/
structure Numeral where
  negative : Bool
  whole : List Char
  fraction : List Char
  whole_ne_nil : whole ≠ []
  isDigit_whole : ∀ c ∈ whole, c.isDigit = true
  isDigit_fraction : ∀ c ∈ fraction, c.isDigit = true

namespace Numeral

def sign (n : Numeral) : List Char := if n.negative then ['-'] else []

def fractionText (n : Numeral) : List Char := if n.fraction = [] then [] else '.' :: n.fraction

def text (n : Numeral) : List Char := n.sign ++ n.whole ++ n.fractionText

/-- The number is the correctly rounded value of the numeral. -/
def Denotes (n : Numeral) (x : Binary64) : Prop :=
  ∃ m : Magnitude, x = .signed n.negative m ∧
    m.IsNearest (ofDecimalDigits (n.whole ++ n.fraction)) (10 ^ n.fraction.length)

end Numeral

inductive WritesNumbers : List Char → List Binary64 → Prop where
  | last {before after : List Char} {n : Numeral} {x : Binary64} :
      IsBlanks before → n.Denotes x → IsBlanks after →
      WritesNumbers (before ++ n.text ++ after) [x]
  | comma {before after rest : List Char} {n : Numeral} {x : Binary64} {xs : List Binary64} :
      IsBlanks before → n.Denotes x → IsBlanks after → WritesNumbers rest xs →
      WritesNumbers (before ++ n.text ++ after ++ ',' :: rest) (x :: xs)

inductive WritesLower : List Char → Binary64 → Prop where
  | numeral {n : Numeral} {x : Binary64} : n.Denotes x → WritesLower n.text x
  | infinity : WritesLower ['-', 'I', 'n', 'f'] .negativeInfinity

inductive WritesUpper : List Char → Binary64 → Prop where
  | numeral {n : Numeral} {x : Binary64} : n.Denotes x → WritesUpper n.text x
  | infinity : WritesUpper ['I', 'n', 'f'] .infinity
  | plusInfinity : WritesUpper ['+', 'I', 'n', 'f'] .infinity

def openingBracket (includesLower : Bool) : Char := if includesLower then '[' else ']'

def closingBracket (includesUpper : Bool) : Char := if includesUpper then ']' else '['

inductive Writes : List Char → Condition → Prop where
  | values {s : List Char} {xs : List Binary64} :
      WritesNumbers s xs → Writes ('\x7b' :: s ++ ['\x7d']) (.values xs)
  | interval {b₁ l b₂ b₃ r b₄ : List Char} {range : Interval} :
      IsBlanks b₁ → WritesLower l range.lower → IsBlanks b₂ →
      IsBlanks b₃ → WritesUpper r range.upper → IsBlanks b₄ →
      Writes (openingBracket range.includesLower :: b₁ ++ l ++ b₂ ++ ',' :: b₃ ++ r ++ b₄ ++
        [closingBracket range.includesUpper]) (.interval range)

/-- A way to see a fragment as a condition with a text behind it. -/
structure Split (fragment : List Char) where
  before : List Char
  written : List Char
  after : List Char
  text : List Char
  condition : Condition
  append_eq : before ++ written ++ after ++ text = fragment
  isBlanks_before : IsBlanks before
  writes : Writes written condition
  isBlanks_after : IsBlanks after
  text_no_leading_blank : HasNoLeadingBlank text

def OpensCondition (fragment : List Char) : Prop :=
  ∃ c, fragment.find? (fun c => !isAsciiBlank c) = some c ∧ (c = '\x7b' ∨ c = '[' ∨ c = ']')

end Condition

end Phrasebook
