import DeskCalculator.Decimal.Basic

/-!
# Decimals — The shortest decimal of a double

Of the decimals that read back as a given finite double, the one on the coarsest grid of powers of
ten: it has the fewest digits.  On a grid only the double's two neighbours are candidates; if both
read back, the nearer is taken, and the upper one at a tie.  The search goes down from a grid coarser
than the double and stops at the latest on the grid of its own last place, where the double itself is
a point.
-/

namespace DeskCalculator.Double

/-- Whether `d` rounds to the double `bits`. -/
def readsBack (bits : Nat) (d : Decimal) : Bool := nearestBits d.toRat == bits

/-- The point of the grid `10 ^ place` that stands for `bits`, if one does. -/
def onGrid? (bits : Nat) (place : Int) : Option Decimal :=
  let steps := scale 10 (-place) (magnitude bits)
  let below := steps.num.toNat / steps.den
  let lower : Decimal := ⟨below, place⟩
  let upper : Decimal := ⟨below + 1, place⟩
  if readsBack bits lower then
    if steps.den ≤ 2 * (steps.num.toNat % steps.den) && readsBack bits upper then some upper
    else some lower
  else if readsBack bits upper then some upper
  else none

/-- The first hit among the grids `place`, `place - 1`, …, `place - n`; on the last of them the
double is taken to be a point. -/
def coarsest (bits : Nat) (place : Int) : Nat → Decimal
  | 0 =>
      let steps := scale 10 (-place) (magnitude bits)
      ⟨steps.num.toNat / steps.den, place⟩
  | n + 1 => (onGrid? bits place).getD (coarsest bits (place - 1) n)

/-- A place whose grid is coarser than the double: `2 ^ (s + 1) ≤ 10 ^ place` for its leading binary
digit `s`, as `log₁₀ 2` is a little less than `0.30103`. -/
def coarsePlace (bits : Nat) : Int :=
  (floorLog2 (magnitude bits) + 1) * 30103 / 100000 + 1

/-- The shortest decimal that reads back as the finite double `bits`. -/
def shortest (bits : Nat) : Decimal :=
  if bits = 0 then ⟨0, 0⟩
  else
    let coarse := coarsePlace bits
    coarsest bits coarse (coarse - min (lastPlace bits) 0).toNat

end DeskCalculator.Double
