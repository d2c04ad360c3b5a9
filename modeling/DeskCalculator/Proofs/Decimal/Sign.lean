import DeskCalculator.Proofs.Decimal.Positional
import Mathlib

/-!
# Decimals — The sign of a double

A double is its sign and the double without it, the bits below the sign bit (`size`).  Negation turns
the sign over and leaves these bits as they are, also those of zero (`neg_ofBits_size`).  A finite
double is one whose bits without the sign are below infinity (`size_lt_of_isFinite`).

**The text of a finite double** is therefore a numeral, with a minus in front if the double has the
sign, and the double is the value of the numeral, negated in that case (`Shows`, `shows_text`).
-/

namespace DeskCalculator.Double

open Float.Model (Format)
open Float.Model.UnpackedFloat

/-- The bits of a double without its sign. -/
def size (x : Float) : Nat := x.toBits.toNat % signBit

/-! ### The parts of a double -/

theorem toNat_unpackMantissa (b : BitVec Format.binary64.numBits) :
    (unpackMantissa b).toNat = b.toNat % 0x10000000000000 := by
  rw [unpackMantissa_def, BitVec.extractLsb'_toNat, Nat.shiftRight_zero]
  rfl

theorem toNat_unpackExponent (b : BitVec Format.binary64.numBits) :
    (unpackExponent b).toNat = b.toNat / 0x10000000000000 % 2048 := by
  rw [unpackExponent_def, BitVec.extractLsb'_toNat, Nat.shiftRight_eq_div_pow]
  rfl

theorem toNat_unpackSign (b : BitVec Format.binary64.numBits) :
    (unpackSign b).toNat = b.toNat / signBit % 2 := by
  rw [unpackSign_def, BitVec.extractLsb'_toNat, Nat.shiftRight_eq_div_pow]
  rfl

/-- The greatest exponent is that of the values that are not finite. -/
theorem unpackExponent_ne_iff (b : BitVec Format.binary64.numBits) :
    unpackExponent b ≠ -1#_ ↔ b.toNat % signBit < infinityBits := by
  have he : (-BitVec.ofNat Format.binary64.exponentBits 1).toNat = 2047 := rfl
  rw [Ne, ← BitVec.toNat_inj, toNat_unpackExponent, he, signBit, infinityBits]
  omega

/-! ### Finite doubles -/

theorem size_lt_of_isFinite {x : Float} (h : x.isFinite = true) : size x < infinityBits := by
  refine (unpackExponent_ne_iff x.toBits.toBitVec).mp fun he => ?_
  have hx : (unpack Format.binary64 x.toBits.toBitVec).isFinite = true := h
  simp only [unpack, he, if_true] at hx
  split at hx
  · cases hx
  · cases hx

theorem valid_of_lt {b : BitVec Format.binary64.numBits} (h : b.toNat % signBit < infinityBits) :
    Format.binary64.Valid b := ⟨fun he => absurd he ((unpackExponent_ne_iff b).mpr h)⟩

theorem toBits_ofBits_of_lt {n : Nat} (h : n < infinityBits) :
    (Float.ofBits (UInt64.ofNat n)).toBits.toNat = n := by
  have hn : (UInt64.ofNat n).toNat = n := UInt64.toNat_ofNat_of_lt' (by
    rw [infinityBits] at h
    exact lt_trans h (by decide))
  have hv : Format.binary64.Valid (UInt64.ofNat n).toBitVec := by
    refine valid_of_lt (lt_of_le_of_lt (Nat.mod_le _ _) ?_)
    rw [UInt64.toNat_toBitVec, hn]
    exact h
  have hp : (Float.ofBits (UInt64.ofNat n)).toBits = UInt64.ofNat n :=
    UInt64.toBitVec_inj.mp (pack_unpack_of_valid hv)
  rw [hp, hn]

/-! ### Negation -/

/-- Doubles that differ in the sign alone. -/
theorem unpack_eq_neg {b b' : BitVec Format.binary64.numBits} (hsize : b'.toNat % signBit = b.toNat)
    (hsign : signBit ≤ b'.toNat) : unpack Format.binary64 b' = (unpack Format.binary64 b).neg := by
  have hlt : b'.toNat < 2 * signBit := b'.isLt
  rw [signBit] at hsize hsign hlt
  have hm : unpackMantissa b' = unpackMantissa b := BitVec.eq_of_toNat_eq (by
    rw [toNat_unpackMantissa, toNat_unpackMantissa]; omega)
  have he : unpackExponent b' = unpackExponent b := BitVec.eq_of_toNat_eq (by
    rw [toNat_unpackExponent, toNat_unpackExponent]; omega)
  have hs' : unpackSign b' = 1#1 := BitVec.eq_of_toNat_eq (by
    rw [toNat_unpackSign, signBit]; change _ = 1; omega)
  have hs : unpackSign b = 0#1 := BitVec.eq_of_toNat_eq (by
    rw [toNat_unpackSign, signBit]; change _ = 0; omega)
  simp only [unpack, hm, he, hs, hs']
  split_ifs <;> rfl

/-- A finite double with the sign is the negation of the one without it. -/
theorem neg_ofBits_size {x : Float} (h : x.isFinite = true) (hs : signBit ≤ x.toBits.toNat) :
    -Float.ofBits (UInt64.ofNat (size x)) = x := by
  have hb := toBits_ofBits_of_lt (size_lt_of_isFinite h)
  have hneg : unpack Format.binary64 x.toBits.toBitVec =
      (unpack Format.binary64 (Float.ofBits (UInt64.ofNat (size x))).toBits.toBitVec).neg :=
    unpack_eq_neg hb.symm hs
  refine Float.toBits_inj.mp (UInt64.toBitVec_inj.mp ?_)
  calc (-Float.ofBits (UInt64.ofNat (size x))).toBits.toBitVec
      = pack Format.binary64
          (unpack Format.binary64 (Float.ofBits (UInt64.ofNat (size x))).toBits.toBitVec).neg := rfl
    _ = pack Format.binary64 (unpack Format.binary64 x.toBits.toBitVec) := by rw [hneg]
    _ = x.toBits.toBitVec := pack_unpack_of_valid x.toModel.valid

/-! ### The text -/

/-- A text that shows `x` with a numeral. -/
inductive Shows (x : Float) : List Char → Prop where
  | plain (n : Numeral) (written : n.Written) (value : n.value = x) : Shows x n.text
  | negated (n : Numeral) (written : n.Written) (value : -n.value = x) : Shows x ('-' :: n.text)

/-- The text of a finite double shows it. -/
theorem shows_text {x : Float} (h : x.isFinite = true) : Shows x (text x).toList := by
  have hlt := size_lt_of_isFinite h
  have hw := (shortest (size x)).written_numeral
  have hv := value_numeral_shortest hlt
  have ht : text x = (if x.toBits.toNat < signBit then "" else "-") ++
      String.ofList (shortest (size x)).positional := by
    rw [size] at hlt ⊢
    simp only [text, if_neg (not_lt.mpr hlt.le), if_neg hlt.ne]
  rw [ht, ← Decimal.text_numeral]
  split
  · rename_i hs
    have hx : size x = x.toBits.toNat := Nat.mod_eq_of_lt hs
    simp only [String.toList_append, String.toList_ofList]
    refine .plain _ hw ?_
    rw [hv, hx, UInt64.ofNat_toNat, Float.ofBits_toBits]
  · rename_i hs
    simp only [String.toList_append, String.toList_ofList]
    refine .negated _ hw ?_
    rw [hv, neg_ofBits_size h (not_lt.mp hs)]

end DeskCalculator.Double
