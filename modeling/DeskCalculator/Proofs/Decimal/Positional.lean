import DeskCalculator.Decimal.Positional
import DeskCalculator.Proofs.Decimal.Shortest
import DeskCalculator.Proofs.Lexer.Numeral
import Mathlib.Data.List.DropRight

/-!
# Decimals — Positional text as a numeral

The positional text of a decimal is the text of a numeral without an exponent (`text_numeral`,
`written_numeral`), and that numeral says the number the decimal is (`toRat_numeral`): the zeros put
before the digits of a fraction and the zeros dropped behind them change its length and its digits
alike.

So the text of a finite double, the sign apart, is a numeral whose value is that double
(`value_numeral_shortest`).
-/

namespace DeskCalculator

/-! ### Digits -/

theorem isDigit_of_mem_paddedDigits (width n : Nat) :
    ∀ c ∈ paddedDigits width n, c.isDigit = true := by
  intro c hc
  rcases List.mem_append.mp hc with hc | hc
  · rw [List.eq_of_mem_replicate hc]
    rfl
  · exact Nat.isDigit_of_mem_toDigits (by omega) (le_refl 10) hc

theorem ofDigitChars_paddedDigits (width n : Nat) :
    Nat.ofDigitChars 10 (paddedDigits width n) 0 = n := by
  simp only [paddedDigits]
  rw [Nat.ofDigitChars_append, Nat.ofDigitChars_replicate_zero, Nat.mul_zero,
    Nat.ofDigitChars_ten_toDigits]

theorem length_paddedDigits {width n : Nat} (hw : 0 < width) (h : n < 10 ^ width) :
    (paddedDigits width n).length = width := by
  have hl := (Nat.length_toDigits_le_iff (b := 10) (by omega) hw).mpr h
  simp only [paddedDigits, List.length_append, List.length_replicate]
  omega

/-- Only zeros are dropped. -/
theorem dropTrailingZeros_append (digits : List Char) :
    ∃ n, dropTrailingZeros digits ++ List.replicate n '0' = digits := by
  have h : digits.rdropWhile (· == '0') ++ digits.rtakeWhile (· == '0') = digits :=
    List.rdropWhile_append_rtakeWhile
  have hz : ∀ c ∈ digits.rtakeWhile (· == '0'), c = '0' := fun c hc =>
    beq_iff_eq.mp (List.mem_rtakeWhile_imp (p := (· == '0')) hc)
  rw [List.eq_replicate_of_mem hz] at h
  exact ⟨_, h⟩

/-! ### The numeral -/

namespace Decimal

/-- The numeral a decimal is written as. -/
def numeral (d : Decimal) : Numeral :=
  if 0 ≤ d.exponent then ⟨Nat.toDigits 10 (d.digits * 10 ^ d.exponent.toNat), none, none⟩
  else
    let places := (-d.exponent).toNat
    let fraction := dropTrailingZeros (paddedDigits places (d.digits % 10 ^ places))
    ⟨Nat.toDigits 10 (d.digits / 10 ^ places), if fraction = [] then none else some fraction, none⟩

theorem text_numeral (d : Decimal) : d.numeral.text = d.positional := by
  simp only [numeral, positional, Nat.pow_eq]
  split
  · exact List.append_nil _
  · generalize dropTrailingZeros _ = fraction
    cases fraction with
    | nil => exact List.append_nil _
    | cons c fraction =>
        rw [if_neg (List.cons_ne_nil c fraction), Numeral.text]
        simp

theorem written_numeral (d : Decimal) : d.numeral.Written := by
  have hd (n : Nat) : ∀ c ∈ Nat.toDigits 10 n, c.isDigit = true := fun c =>
    Nat.isDigit_of_mem_toDigits (by omega) (le_refl 10)
  simp only [numeral]
  split
  · exact ⟨hd _, nofun, .inl Nat.toDigits_ne_nil, nofun⟩
  · refine ⟨hd _, fun f hf c hc => ?_, .inl Nat.toDigits_ne_nil, nofun⟩
    obtain ⟨n, hn⟩ := dropTrailingZeros_append
      (paddedDigits (-d.exponent).toNat (d.digits % 10 ^ (-d.exponent).toNat))
    split at hf
    · cases hf
    · cases hf
      exact isDigit_of_mem_paddedDigits _ _ c (hn ▸ List.mem_append_left _ hc)

theorem exponent_numeral_le (d : Decimal) : d.numeral.decimal.exponent ≤ 0 := by
  have h : d.numeral.exponent = none := by
    simp only [numeral]
    split <;> rfl
  simp only [Numeral.decimal, h, Option.elim_none, Int.ofNat_eq_natCast]
  omega

/-- A fraction written to `k` places fewer than it has, the last `k` of them zero. -/
theorem toRat_fraction {digits places k : Nat} {fraction : List Char}
    (hf : 10 ^ k * Nat.ofDigitChars 10 fraction 0 = digits % 10 ^ places)
    (hl : fraction.length + k = places) :
    toRat ⟨Nat.ofDigitChars 10 (Nat.toDigits 10 (digits / 10 ^ places) ++ fraction) 0,
      -(fraction.length : Int)⟩ = toRat ⟨digits, -(places : Int)⟩ := by
  subst hl
  have hdigits : 10 ^ k * Nat.ofDigitChars 10
      (Nat.toDigits 10 (digits / 10 ^ (fraction.length + k)) ++ fraction) 0 = digits := by
    calc 10 ^ k * Nat.ofDigitChars 10
          (Nat.toDigits 10 (digits / 10 ^ (fraction.length + k)) ++ fraction) 0
        = 10 ^ k * (10 ^ fraction.length * (digits / 10 ^ (fraction.length + k)) +
            Nat.ofDigitChars 10 fraction 0) := by
          rw [Nat.ofDigitChars_append, Nat.ofDigitChars_ten_toDigits,
            Nat.ofDigitChars_eq_ofDigitChars_zero]
      _ = 10 ^ (fraction.length + k) * (digits / 10 ^ (fraction.length + k)) +
            digits % 10 ^ (fraction.length + k) := by rw [← hf]; ring
      _ = digits := Nat.div_add_mod _ _
  rw [toRat_eq, toRat_eq]
  conv_rhs => rw [← hdigits]
  push_cast
  rw [neg_add, zpow_add₀ (by norm_num), zpow_neg, zpow_neg, zpow_natCast, zpow_natCast]
  field_simp

theorem toRat_numeral (d : Decimal) : d.numeral.decimal.toRat = d.toRat := by
  obtain ⟨digits, exponent⟩ := d
  simp only [numeral]
  split
  · rename_i h
    obtain ⟨e, rfl⟩ := Int.eq_ofNat_of_zero_le h
    simp [Numeral.decimal, toRat_eq, Nat.ofDigitChars_ten_toDigits]
  · rename_i h
    obtain ⟨places, rfl⟩ : ∃ p : Nat, exponent = -(p : Int) := ⟨exponent.natAbs, by omega⟩
    rw [neg_neg, Int.toNat_natCast]
    have hpadded := length_paddedDigits (by omega)
      (Nat.mod_lt digits (show 0 < 10 ^ places by positivity))
    have hvalue := ofDigitChars_paddedDigits places (digits % 10 ^ places)
    obtain ⟨k, hk⟩ := dropTrailingZeros_append (paddedDigits places (digits % 10 ^ places))
    generalize dropTrailingZeros (paddedDigits places (digits % 10 ^ places)) = fraction at hk
    rw [← hk, List.length_append, List.length_replicate] at hpadded
    rw [← hk, Nat.ofDigitChars_append, Nat.ofDigitChars_replicate_zero] at hvalue
    have hget : (if fraction = [] then none else some fraction).getD [] = fraction := by
      split
      · rename_i hn
        rw [hn]
        rfl
      · rfl
    simp only [Numeral.decimal, hget, Option.elim_none, Int.ofNat_eq_natCast, zero_sub]
    exact toRat_fraction hvalue hpadded

/-- The value of the numeral a decimal is written as. -/
theorem value_numeral (d : Decimal) : d.numeral.value = Double.nearest d.toRat := by
  have h := d.exponent_numeral_le
  rw [Numeral.value, toDouble, Double.nearest, nearestBits_bounded (by omega), toRat_numeral,
    Double.nearest]

end Decimal

/-- The text of a finite double without its sign has the value of the double. -/
theorem Double.value_numeral_shortest {bits : Nat} (h : bits < infinityBits) :
    (shortest bits).numeral.value = Float.ofBits (UInt64.ofNat bits) := by
  rw [Decimal.value_numeral, nearest, nearestBits_shortest h]

end DeskCalculator
