import DeskCalculator.Decimal.Double

/-!
# Decimals — Decimal numbers

A whole number times a power of ten: what a numeral says and what a printed value shows.  `toDouble`
rounds it once, from its exact value.
-/

namespace DeskCalculator

/-- The number `digits · 10 ^ exponent`. -/
structure Decimal where
  digits : Nat
  exponent : Int
  deriving DecidableEq, Repr

namespace Decimal

def toRat (d : Decimal) : Rat := scale 10 d.exponent (mkRat (Int.ofNat d.digits) 1)

/-- The same number as far as a double can tell.  A power of ten beyond `400` takes any whole number
but zero past the last double, and one that leaves less than `10 ^ -400` takes it below half the
least, so the exponent need not go further. -/
def bounded (d : Decimal) : Decimal :=
  ⟨d.digits, max (min d.exponent 400) (-(401 + Int.ofNat d.digits.log2))⟩

/-- The double nearest to `d`. -/
def toDouble (d : Decimal) : Float := Double.nearest d.bounded.toRat

end Decimal

end DeskCalculator
