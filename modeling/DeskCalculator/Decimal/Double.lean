/-!
# Decimals — Doubles

The 64-bit floating-point numbers as rational numbers.  A double without its sign is a number `b`
below `2 ^ 63`; the finite ones lie below `infinityBits`, in the order of their values, and `b`
stands for `significand b · 2 ^ lastPlace b` (`magnitude`).  `nearestBits` goes the other way: it
rounds a rational number to the nearest double, a tie to the even significand, and a number past
the last finite double to infinity.
-/

namespace DeskCalculator

/-- `x · base ^ e`. -/
def scale (base : Nat) (e : Int) (x : Rat) : Rat :=
  if 0 ≤ e then mkRat (x.num * Int.ofNat (Nat.pow base e.toNat)) x.den
  else mkRat x.num (x.den * Nat.pow base (-e).toNat)

/-- The whole number nearest to `x ≥ 0`, a tie to the even one. -/
def roundHalfEven (x : Rat) : Nat :=
  let whole := x.num.toNat / x.den
  let twice := 2 * (x.num.toNat % x.den)
  if x.den < twice then whole + 1
  else if twice = x.den then whole + whole % 2
  else whole

/-- The `s` with `2 ^ s ≤ x < 2 ^ (s + 1)`, for `x > 0`. -/
def floorLog2 (x : Rat) : Int :=
  let s : Int := Int.ofNat x.num.toNat.log2 - Int.ofNat x.den.log2
  let scaled := scale 2 (-s) x
  if scaled.num.toNat < scaled.den then s - 1 else s

namespace Double

/-- The bits of infinity, one past the last finite double. -/
def infinityBits : Nat := 0x7FF0000000000000

/-- The bit of the sign. -/
def signBit : Nat := 0x8000000000000000

/-- The whole number whose multiple by a power of two is the double. -/
def significand (bits : Nat) : Nat :=
  if bits < 0x10000000000000 then bits else 0x10000000000000 + bits % 0x10000000000000

/-- The exponent of two by which the significand is multiplied. -/
def lastPlace (bits : Nat) : Int :=
  if bits < 0x10000000000000 then -1074 else Int.ofNat (bits / 0x10000000000000) - 1075

/-- The value of a finite double without its sign. -/
def magnitude (bits : Nat) : Rat :=
  scale 2 (lastPlace bits) (mkRat (Int.ofNat (significand bits)) 1)

/-- The bits of the double nearest to `x ≥ 0`.  The last place is that of `x`'s leading binary digit
less 52, and never below that of the least doubles; a significand that rounds up to `2 ^ 53` carries
into the exponent by itself. -/
def nearestBits (x : Rat) : Nat :=
  if x.num.toNat = 0 then 0
  else
    let place := max (floorLog2 x - 52) (-1074)
    min infinityBits ((place + 1074).toNat * 0x10000000000000 + roundHalfEven (scale 2 (-place) x))

/-- The double nearest to `x ≥ 0`. -/
def nearest (x : Rat) : Float := Float.ofBits (UInt64.ofNat (nearestBits x))

end Double

end DeskCalculator
