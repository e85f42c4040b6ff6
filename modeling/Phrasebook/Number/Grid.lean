/-!
# Floating grids

A floating grid holds zero and all magnitudes with at most `p` significant binary
digits, counted in a smallest step. Its members are numbered in ascending order:
the *code* of a member is its position, so that neighbours have neighbouring codes
and the order of magnitudes is the order of codes. Every exact magnitude is a
quotient of two naturals, and `nearest` finds the code it rounds to.
-/

namespace Phrasebook.Number.Grid

/-- The magnitude with a given code, in steps. -/
def steps (p code : Nat) : Nat :=
  let half := Nat.pow 2 (p - 1)
  let scale := code / half
  if scale = 0 then code else (half + code % half) * Nat.pow 2 (scale - 1)

/-- The greatest code whose magnitude is at most `n` steps. -/
def floorCode (p n : Nat) : Nat :=
  let shift := n.log2 + 1 - p
  shift * Nat.pow 2 (p - 1) + n / Nat.pow 2 shift

/-- The code nearest to `num / den` steps; of two equally near codes the even one. -/
def nearest (p num den : Nat) : Nat :=
  let below := floorCode p (num / den)
  let middle := (steps p below + steps p (below + 1)) * den
  if 2 * num < middle then below
  else if middle < 2 * num then below + 1
  else if below % 2 = 0 then below
  else below + 1

@[simp] theorem steps_zero (p : Nat) : steps p 0 = 0 := by
  simp [steps]

end Phrasebook.Number.Grid
