import DeskCalculator.Decimal.Basic
import Mathlib.Algebra.Order.Field.Power
import Mathlib.Data.Rat.Floor
import Mathlib.Tactic.FieldSimp
import Mathlib.Tactic.Linarith
import Mathlib.Tactic.Positivity
import Mathlib.Tactic.Ring

/-!
# Decimals — Rounding

What is known of the double nearest to a rational number.  The place of its last digit is a matter of
the leading binary digit, which lies between two neighbouring powers of two (`floorLog2_spec`).  A
number that is a double already is rounded to itself (`nearestBits_magnitude`), and a number that is
not rounded to zero is at least half of the least double (`le_of_nearestBits_ne_zero`).

So the bounds that are put on the exponent of a decimal before it is rounded do not matter
(`nearestBits_bounded`): a decimal below them is rounded to zero in either case.
-/

namespace DeskCalculator

/-! ### Powers -/

theorem scale_eq (base : Nat) (e : Int) (x : Rat) : scale base e x = x * (base : ℚ) ^ e := by
  unfold scale
  split
  · rename_i h
    obtain ⟨n, rfl⟩ := Int.eq_ofNat_of_zero_le h
    calc mkRat (x.num * Int.ofNat (Nat.pow base n)) x.den
        = x.num * (base : ℚ) ^ n / x.den := by
          rw [Rat.mkRat_eq_div, Int.ofNat_eq_natCast, Nat.pow_eq]
          push_cast
          rfl
      _ = x.num / x.den * (base : ℚ) ^ n := by ring
      _ = x * (base : ℚ) ^ (n : Int) := by rw [Rat.num_div_den, zpow_natCast]
  · rename_i h
    obtain ⟨n, hn⟩ := Int.eq_ofNat_of_zero_le (a := -e) (by omega)
    obtain rfl : e = -(n : Int) := by omega
    calc mkRat x.num (x.den * Nat.pow base (- -(n : Int)).toNat)
        = x.num / (x.den * (base : ℚ) ^ n) := by
          rw [neg_neg, Int.toNat_natCast, Rat.mkRat_eq_div, Nat.pow_eq]
          push_cast
          rfl
      _ = x.num / x.den * ((base : ℚ) ^ n)⁻¹ := by rw [div_mul_eq_div_div, div_eq_mul_inv (_ / _)]
      _ = x * (base : ℚ) ^ (-(n : Int)) := by rw [Rat.num_div_den, zpow_neg, zpow_natCast]

theorem toNat_num_div_den {x : ℚ} (h : 0 ≤ x) : (x.num.toNat : ℚ) / x.den = x := by
  have hn : ((x.num.toNat : Int) : ℚ) = x.num := by rw [Int.toNat_of_nonneg (Rat.num_nonneg.mpr h)]
  rw [show (x.num.toNat : ℚ) = x.num by exact_mod_cast hn, Rat.num_div_den]

theorem toNat_num_ne_zero {x : ℚ} (h : 0 < x) : x.num.toNat ≠ 0 := by
  have := Rat.num_pos.mpr h
  omega

theorem lt_one_iff {x : ℚ} (h : 0 ≤ x) : x.num.toNat < x.den ↔ x < 1 := by
  conv_rhs => rw [← toNat_num_div_den h, div_lt_one (by exact_mod_cast x.den_pos)]
  exact Nat.cast_lt.symm

theorem two_zpow_log2_le {n : Nat} (h : n ≠ 0) : (2 : ℚ) ^ (n.log2 : Int) ≤ n := by
  exact_mod_cast Nat.log2_self_le h

theorem lt_two_zpow_log2 (n : Nat) : (n : ℚ) < 2 ^ (n.log2 + 1 : Int) := by
  exact_mod_cast Nat.lt_log2_self

/-- The leading digits of numerator and denominator leave two places for that of a number. -/
theorem between_two_zpow {x : ℚ} (h : 0 < x) {s : Int}
    (hs : (x.num.toNat.log2 : Int) - x.den.log2 = s) : (2 : ℚ) ^ (s - 1) ≤ x ∧ x < 2 ^ (s + 1) := by
  have hd : (0 : ℚ) < x.den := by exact_mod_cast x.den_pos
  have hx := toNat_num_div_den h.le
  rw [← hx, le_div_iff₀ hd, div_lt_iff₀ hd]
  constructor
  · calc (2 : ℚ) ^ (s - 1) * x.den
        ≤ 2 ^ (s - 1) * 2 ^ (x.den.log2 + 1 : Int) := by
          gcongr
          exact (lt_two_zpow_log2 _).le
      _ = 2 ^ (x.num.toNat.log2 : Int) := by rw [← zpow_add₀ two_ne_zero]; congr 1; omega
      _ ≤ x.num.toNat := two_zpow_log2_le (toNat_num_ne_zero h)
  · calc (x.num.toNat : ℚ)
        < 2 ^ (x.num.toNat.log2 + 1 : Int) := lt_two_zpow_log2 _
      _ = 2 ^ (s + 1) * 2 ^ (x.den.log2 : Int) := by rw [← zpow_add₀ two_ne_zero]; congr 1; omega
      _ ≤ 2 ^ (s + 1) * x.den := by
          gcongr
          exact two_zpow_log2_le x.den_ne_zero

/-- The leading binary digit is where the number lies between two powers of two. -/
theorem floorLog2_spec {x : ℚ} (h : 0 < x) :
    (2 : ℚ) ^ floorLog2 x ≤ x ∧ x < (2 : ℚ) ^ (floorLog2 x + 1) := by
  generalize hs : (x.num.toNat.log2 : Int) - x.den.log2 = s
  obtain ⟨hlow, hhigh⟩ := between_two_zpow h hs
  have hscaled : scale 2 (-s) x = x * (2 : ℚ) ^ (-s) := by rw [scale_eq]; norm_num
  have hlt : (scale 2 (-s) x).num.toNat < (scale 2 (-s) x).den ↔ x < 2 ^ s := by
    rw [hscaled, lt_one_iff (by positivity), zpow_neg, ← div_eq_mul_inv, div_lt_one (by positivity)]
  have hf : floorLog2 x = if x < 2 ^ s then s - 1 else s := by
    simp only [floorLog2, Int.ofNat_eq_natCast, hs, hlt]
  rw [hf]
  split
  · rename_i hl
    exact ⟨hlow, by rwa [sub_add_cancel]⟩
  · rename_i hl
    exact ⟨not_lt.mp hl, hhigh⟩

/-- Only one digit leads. -/
theorem floorLog2_eq {x : ℚ} {s : Int} (hl : (2 : ℚ) ^ s ≤ x) (hu : x < (2 : ℚ) ^ (s + 1)) :
    floorLog2 x = s := by
  obtain ⟨hl', hu'⟩ := floorLog2_spec (lt_of_lt_of_le (by positivity) hl)
  have h1 := (zpow_lt_zpow_iff_right₀ (one_lt_two (α := ℚ))).mp (lt_of_le_of_lt hl hu')
  have h2 := (zpow_lt_zpow_iff_right₀ (one_lt_two (α := ℚ))).mp (lt_of_le_of_lt hl' hu)
  omega

/-! ### Whole numbers -/

theorem roundHalfEven_natCast (n : Nat) : roundHalfEven (n : ℚ) = n := by
  simp [roundHalfEven, Nat.mod_one]

/-- A number that is rounded up to a whole number other than zero is at least one half. -/
theorem half_le_of_roundHalfEven_ne_zero {x : ℚ} (h : 0 ≤ x) (hr : roundHalfEven x ≠ 0) :
    1 / 2 ≤ x := by
  by_contra hlt
  refine hr ?_
  have hd : (0 : ℚ) < x.den := by exact_mod_cast x.den_pos
  have htwice : 2 * x.num.toNat < x.den := by
    have hx : (x.num.toNat : ℚ) / x.den < 1 / 2 := by rw [toNat_num_div_den h]; exact not_le.mp hlt
    rw [div_lt_div_iff₀ hd two_pos] at hx
    have hx' : ((2 * x.num.toNat : Nat) : ℚ) < (x.den : ℚ) := by push_cast; linarith
    exact_mod_cast hx'
  have hw : x.num.toNat / x.den = 0 := Nat.div_eq_of_lt (by omega)
  have hm : x.num.toNat % x.den = x.num.toNat := Nat.mod_eq_of_lt (by omega)
  simp only [roundHalfEven, hw, hm, if_neg (show ¬ x.den < 2 * x.num.toNat by omega),
    if_neg (show ¬ 2 * x.num.toNat = x.den by omega)]

namespace Double

/-! ### Doubles -/

theorem magnitude_eq (bits : Nat) : magnitude bits = significand bits * (2 : ℚ) ^ lastPlace bits := by
  rw [magnitude, scale_eq, Rat.mkRat_one]
  norm_num

section
variable {bits : Nat} (h0 : bits ≠ 0)
include h0

theorem significand_ne_zero : significand bits ≠ 0 := by
  unfold significand
  split <;> omega

theorem magnitude_pos : 0 < magnitude bits := by
  have hm : (0 : ℚ) < significand bits := by
    exact_mod_cast Nat.pos_of_ne_zero (significand_ne_zero h0)
  rw [magnitude_eq]
  positivity

theorem floorLog2_magnitude :
    floorLog2 (magnitude bits) = (significand bits).log2 + lastPlace bits := by
  rw [magnitude_eq]
  refine floorLog2_eq ?_ ?_
  · rw [zpow_add₀ two_ne_zero]
    gcongr
    exact two_zpow_log2_le (significand_ne_zero h0)
  · rw [add_right_comm, zpow_add₀ two_ne_zero]
    gcongr
    exact lt_two_zpow_log2 _

/-- The place of the last digit is that of the significand. -/
theorem place_magnitude : max (floorLog2 (magnitude bits) - 52) (-1074) = lastPlace bits := by
  rw [floorLog2_magnitude h0]
  unfold significand lastPlace
  split
  · rename_i hs
    have := (Nat.log2_lt h0).mpr (show bits < 2 ^ 52 from hs)
    omega
  · have hl : (0x10000000000000 + bits % 0x10000000000000).log2 = 52 := by
      rw [Nat.log2_eq_iff (by omega)]
      omega
    rw [hl, Int.ofNat_eq_natCast]
    omega

end

theorem roundHalfEven_magnitude (bits : Nat) :
    roundHalfEven (scale 2 (-lastPlace bits) (magnitude bits)) = significand bits := by
  have hs : scale 2 (-lastPlace bits) (magnitude bits) = (significand bits : ℚ) := by
    rw [scale_eq, magnitude_eq, mul_assoc, Nat.cast_ofNat, ← zpow_add₀ two_ne_zero, add_neg_cancel,
      zpow_zero, mul_one]
  rw [hs, roundHalfEven_natCast]

/-- The exponent and the significand are the bits. -/
theorem lastPlace_add_significand (bits : Nat) :
    (lastPlace bits + 1074).toNat * 0x10000000000000 + significand bits = bits := by
  unfold significand lastPlace
  split
  · omega
  · rw [Int.ofNat_eq_natCast]
    omega

/-- A double is rounded to itself. -/
theorem nearestBits_magnitude {bits : Nat} (h : bits < infinityBits) :
    nearestBits (magnitude bits) = bits := by
  by_cases h0 : bits = 0
  · have hz : magnitude bits = 0 := by rw [magnitude_eq, h0]; simp [significand]
    rw [hz, h0]
    rfl
  rw [nearestBits, if_neg (toNat_num_ne_zero (magnitude_pos h0))]
  simp only [place_magnitude h0, roundHalfEven_magnitude, lastPlace_add_significand]
  exact Nat.min_eq_right h.le

/-- What is not rounded to zero is at least half of the least double. -/
theorem le_of_nearestBits_ne_zero {x : ℚ} (h : 0 ≤ x) (hn : nearestBits x ≠ 0) :
    (2 : ℚ) ^ (-1075 : Int) ≤ x := by
  have hnum : x.num.toNat ≠ 0 := fun h0 => hn (by rw [nearestBits, if_pos h0])
  have hpos : 0 < x := by
    refine lt_of_le_of_ne h fun h0 => hnum ?_
    rw [← h0]
    rfl
  by_cases hp : floorLog2 x - 52 ≤ -1074
  · -- the last place is that of the least double, and the number fills half of it
    have hr : roundHalfEven (scale 2 1074 x) ≠ 0 := by
      intro h0
      refine hn ?_
      simp only [nearestBits, if_neg hnum, max_eq_right hp, neg_neg, h0]
      rfl
    have hs : scale 2 1074 x = x * (2 : ℚ) ^ (1074 : Int) := by rw [scale_eq]; norm_num
    rw [hs] at hr
    have hh := half_le_of_roundHalfEven_ne_zero (by positivity) hr
    calc (2 : ℚ) ^ (-1075 : Int)
        = 1 / 2 * 2 ^ (-1074 : Int) := by
          rw [one_div, ← zpow_neg_one, ← zpow_add₀ two_ne_zero]; norm_num
      _ ≤ x * 2 ^ (1074 : Int) * 2 ^ (-1074 : Int) := by gcongr
      _ = x := by rw [mul_assoc, ← zpow_add₀ two_ne_zero]; norm_num
  · calc (2 : ℚ) ^ (-1075 : Int)
        ≤ 2 ^ floorLog2 x := zpow_le_zpow_right₀ one_le_two (by omega)
      _ ≤ x := (floorLog2_spec hpos).1

end Double

namespace Decimal
open Double

theorem toRat_eq (d : Decimal) : d.toRat = d.digits * (10 : ℚ) ^ d.exponent := by
  rw [toRat, scale_eq, Rat.mkRat_one]
  norm_num

theorem toRat_nonneg (d : Decimal) : 0 ≤ d.toRat := by
  rw [toRat_eq]
  positivity

/-- A decimal whose exponent is below the bound put on it is rounded to zero. -/
theorem nearestBits_of_exponent_le {d : Decimal} (h : d.exponent ≤ -(401 + (d.digits.log2 : Int))) :
    nearestBits d.toRat = 0 := by
  by_contra hn
  have hl := le_of_nearestBits_ne_zero d.toRat_nonneg hn
  have hu : d.toRat < (2 : ℚ) ^ (-1075 : Int) := by
    calc d.toRat
        = d.digits * (10 : ℚ) ^ d.exponent := d.toRat_eq
      _ < 2 ^ (d.digits.log2 + 1 : Int) * (10 : ℚ) ^ d.exponent := by
          gcongr
          exact lt_two_zpow_log2 _
      _ ≤ 2 ^ (d.digits.log2 + 1 : Int) * (10 : ℚ) ^ (-(401 + (d.digits.log2 : Int))) := by
          gcongr
          norm_num
      _ ≤ 2 ^ (d.digits.log2 + 1 : Int) * ((2 : ℚ) ^ (3 : Int)) ^ (-(401 + (d.digits.log2 : Int))) := by
          gcongr 2 ^ (d.digits.log2 + 1 : Int) * ?_
          rw [zpow_neg, zpow_neg]
          have hk : (401 + (d.digits.log2 : Int)) = (401 + d.digits.log2 : Nat) := by push_cast; rfl
          rw [hk, zpow_natCast, zpow_natCast]
          gcongr
          norm_num
      _ = 2 ^ (-1202 - 2 * (d.digits.log2 : Int)) := by
          rw [← zpow_mul, ← zpow_add₀ two_ne_zero]
          congr 1
          ring
      _ ≤ 2 ^ (-1075 : Int) := zpow_le_zpow_right₀ one_le_two (by omega)
  exact absurd (lt_of_le_of_lt hl hu) (lt_irrefl _)

/-- The bounds of the exponent do not show in the double, if there is a double as large as the
decimal. -/
theorem nearestBits_bounded {d : Decimal} (h : d.exponent ≤ 400) :
    nearestBits d.bounded.toRat = nearestBits d.toRat := by
  rw [bounded, min_eq_left h, Int.ofNat_eq_natCast]
  rcases le_total d.exponent (-(401 + (d.digits.log2 : Int))) with hl | hl
  · rw [max_eq_right hl, nearestBits_of_exponent_le hl]
    exact nearestBits_of_exponent_le le_rfl
  · rw [max_eq_left hl]

end Decimal

end DeskCalculator
