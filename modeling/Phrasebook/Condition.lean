import Phrasebook.Number.Shortest

/-!
# Plural conditions

A condition is a finite list of numbers or an interval. In the written form of an
interval a bracket that opens toward the interior includes its bound, so that `]0,10[`
leaves out both of its bounds and `[1,5]` holds both.
-/

namespace Phrasebook

open Number

/-- The numbers between two bounds, each of which may belong to it. -/
structure Interval where
  lower : Binary64
  upper : Binary64
  includesLower : Bool
  includesUpper : Bool
  deriving DecidableEq

inductive Condition where
  | values (numbers : List Binary64)
  | interval (range : Interval)
  deriving DecidableEq

namespace Interval

def contains (range : Interval) (x : Binary64) : Bool :=
  (if range.includesLower then range.lower.lessOrEqual x else range.lower.less x) &&
    (if range.includesUpper then x.lessOrEqual range.upper else x.less range.upper)

end Interval

namespace Condition

def holds : Condition → Binary64 → Bool
  | values numbers, x => numbers.any fun v => v.equals x
  | interval range, x => range.contains x

/-- A bound as it is written: the infinities have words. -/
def boundText (x : Binary64) : String :=
  if x = .negativeInfinity then "-Inf" else if x = .infinity then "+Inf" else x.plain

def render : Condition → String
  | values numbers => "\x7b" ++ ",".intercalate (numbers.map Binary64.plain) ++ "\x7d"
  | interval range =>
    (if range.includesLower then "[" else "]") ++ boundText range.lower ++ "," ++
      boundText range.upper ++ (if range.includesUpper then "]" else "[")

end Condition

end Phrasebook
