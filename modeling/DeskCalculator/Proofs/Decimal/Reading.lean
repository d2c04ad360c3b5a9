import DeskCalculator.Decimal.Reading
import DeskCalculator.Proofs.Decimal.Sign
import DeskCalculator.Proofs.Lexer.Denotation

/-!
# Decimals — What the reader of doubles takes

The numerals of a line are among the texts that the reader of doubles takes, each with its value
(`parse?_text`).  A numeral that is found is therefore never refused.

The value of a numeral is the double nearest to a number that is not negative.  It has no sign and lies
at or below infinity, so it is neither negative nor undefined (`Numeral.value_nonneg`).
-/

namespace DeskCalculator

open Float.Model (Format)
open Float.Model.UnpackedFloat

namespace Double

/-- No word starts with a digit or a point. -/
theorem toLower_ne {c d : Char} (h : c.isDigit = true ∨ c = '.') (hd : d.isLower = true) :
    c.toLower ≠ d := by
  rintro rfl
  rw [Char.isLower_toLower_eq_isAlpha] at hd
  exact not_isDigit_of_isAlpha hd h

theorem splitSign_of_head {c : Char} (h : c.isDigit = true ∨ c = '.') (rest : List Char) :
    Exponent.splitSign (c :: rest) = (none, c :: rest) := by
  rcases h with h | rfl
  · exact Exponent.splitSign_of_isDigit h rest
  · rfl

/-- The text of a numeral is read, and what is read is its value. -/
theorem parse?_text {n : Numeral} (h : n.Written) : parse? n.text = some n.value := by
  obtain ⟨d, hm, -⟩ := h.exists_digit
  obtain ⟨c, rest, ht⟩ := List.exists_cons_of_ne_nil (List.ne_nil_of_mem hm)
  have hc := h.head_text ht
  have hw (d : Char) (word : List Char) (hd : d.isLower = true) :
      (c :: rest).map Char.toLower ≠ d :: word := fun he =>
    toLower_ne hc hd (List.cons.inj he).1
  have hr := Numeral.read?_text h
  rw [ht] at hr ⊢
  rw [parse?, splitSign_of_head hc]
  simp only [parseUnsigned?]
  rw [if_neg (not_or.mpr ⟨hw 'i' _ rfl, hw 'i' _ rfl⟩), if_neg (hw 'n' _ rfl), hr]
  exact if_pos ht

/-! ### The value of a numeral -/

theorem nearestBits_le (x : Rat) : nearestBits x ≤ infinityBits := by
  unfold nearestBits
  split
  · exact Nat.zero_le _
  · exact Nat.min_le_left _ _

/-- Below infinity and without a sign there are zero and the finite values above it. -/
theorem le_unpack_of_lt {b : BitVec Format.binary64.numBits} (h : b.toNat < infinityBits) :
    (zero .positive).le (unpack Format.binary64 b) = true ∧
      (unpack Format.binary64 b).isNaN = false := by
  have hlt : b.toNat < signBit := lt_trans h (by decide)
  have he : unpackExponent b ≠ -1#_ :=
    (unpackExponent_ne_iff b).mpr (lt_of_le_of_lt (Nat.mod_le _ _) h)
  have hs : unpackSign b = 0#1 := BitVec.eq_of_toNat_eq (by
    rw [toNat_unpackSign, Nat.div_eq_of_lt hlt]
    rfl)
  simp only [unpack, hs, if_neg he]
  split_ifs
  · exact ⟨rfl, rfl⟩
  · exact ⟨rfl, rfl⟩
  · exact ⟨rfl, rfl⟩

/-- A double without a sign that is at most infinity is not negative, and not undefined. -/
theorem nonneg_ofBits {n : Nat} (h : n ≤ infinityBits) :
    0 ≤ Float.ofBits (UInt64.ofNat n) ∧ (Float.ofBits (UInt64.ofNat n)).isNaN = false := by
  rcases Nat.lt_or_eq_of_le h with h | rfl
  · have hb := toBits_ofBits_of_lt h
    rw [← hb] at h
    obtain ⟨hle, hnan⟩ := le_unpack_of_lt h
    exact ⟨decide_eq_true hle, hnan⟩
  · decide +kernel

end Double

/-- The value of a numeral is not negative, and not undefined. -/
theorem Numeral.value_nonneg (n : Numeral) : 0 ≤ n.value ∧ n.value.isNaN = false :=
  Double.nonneg_ofBits (Double.nearestBits_le _)

end DeskCalculator
