import DeskCalculator.Decimal.Shortest
import DeskCalculator.Proofs.Decimal.Rounding

/-!
# Decimals — What the shortest decimal reads back as

The shortest decimal of a finite double is rounded to that double (`nearestBits_shortest`).  A hit on
one of the coarser grids has been read back before it is taken.  The last grid is not tried: it lies
at the last binary place of the double or below it, every multiple of a power of two is there a
multiple of that power of ten, and so the point taken is the double itself.
-/

namespace DeskCalculator.Double

/-- A hit reads back. -/
theorem nearestBits_onGrid? {bits : Nat} {place : Int} {d : Decimal}
    (h : onGrid? bits place = some d) : nearestBits d.toRat = bits := by
  simp only [onGrid?] at h
  split at h
  · rename_i hl
    split at h
    · rename_i hu
      cases h
      exact beq_iff_eq.mp (Bool.and_eq_true_iff.mp hu).2
    · cases h
      exact beq_iff_eq.mp hl
  · split at h
    · rename_i hu
      cases h
      exact beq_iff_eq.mp hu
    · cases h

/-- Where a double is a point of the grid: it is so many steps of it. -/
def OnGrid (bits : Nat) (place : Int) : Prop :=
  ∃ steps : Nat, magnitude bits = steps * (10 : ℚ) ^ place

/-- Below the last binary place and the decimal point every double is a point of the grid. -/
theorem onGrid_of_le {bits : Nat} {place : Int} (hl : place ≤ lastPlace bits) (h0 : place ≤ 0) :
    OnGrid bits place := by
  obtain ⟨p, rfl⟩ : ∃ p : Nat, place = -(p : Int) := ⟨place.natAbs, by omega⟩
  obtain ⟨q, hq⟩ := Int.eq_ofNat_of_zero_le (a := lastPlace bits + p) (by omega)
  refine ⟨significand bits * 2 ^ q * 5 ^ p, ?_⟩
  rw [magnitude_eq, show lastPlace bits = (q : Int) - p by omega, zpow_sub₀ two_ne_zero, zpow_neg,
    zpow_natCast, zpow_natCast, zpow_natCast, show (10 : ℚ) ^ p = 5 ^ p * 2 ^ p by
      rw [← mul_pow]; norm_num]
  push_cast
  field_simp

/-- The point of a grid that is the double. -/
theorem toRat_point {bits : Nat} {place : Int} (h : OnGrid bits place) :
    let steps := scale 10 (-place) (magnitude bits)
    Decimal.toRat ⟨steps.num.toNat / steps.den, place⟩ = magnitude bits := by
  obtain ⟨k, hk⟩ := h
  have hs : scale 10 (-place) (magnitude bits) = (k : ℚ) := by
    rw [scale_eq, hk, mul_assoc, Nat.cast_ofNat, ← zpow_add₀ (by norm_num), add_neg_cancel, zpow_zero,
      mul_one]
  dsimp only
  rw [Decimal.toRat_eq, hs, hk]
  simp

/-- The search, whose last grid has the double as a point. -/
theorem nearestBits_coarsest {bits : Nat} (h : bits < infinityBits) (n : Nat) (place : Int)
    (hon : OnGrid bits (place - n)) : nearestBits (coarsest bits place n).toRat = bits := by
  induction n generalizing place with
  | zero =>
      rw [Nat.cast_zero, sub_zero] at hon
      rw [coarsest, toRat_point hon]
      exact nearestBits_magnitude h
  | succ n ih =>
      rw [coarsest]
      cases hg : onGrid? bits place with
      | some d => exact nearestBits_onGrid? hg
      | none =>
          refine ih (place - 1) ?_
          rwa [Nat.cast_succ, add_comm, ← sub_sub] at hon

/-- The shortest decimal reads back as the double it stands for. -/
theorem nearestBits_shortest {bits : Nat} (h : bits < infinityBits) :
    nearestBits (shortest bits).toRat = bits := by
  unfold shortest
  split
  · rename_i h0
    rw [h0, Decimal.toRat_eq]
    simp [nearestBits]
  · exact nearestBits_coarsest h _ _ (onGrid_of_le (by omega) (by omega))

end DeskCalculator.Double
