import DeskCalculator.Decimal.Shortest

/-!
# Decimals — Positional text

Numbers are written without an exponent: the whole part, and a point and the fraction when there is
one.  Neither a leading nor a trailing zero is written, a lone whole part `0` apart.  A double is
written by its shortest decimal; zero keeps its sign, and the values that are no numbers are `inf`,
`-inf` and `NaN`.
-/

namespace DeskCalculator

/-- The digits of `n`, at least `width` of them. -/
def paddedDigits (width n : Nat) : List Char :=
  let digits := Nat.toDigits 10 n
  List.replicate (width - digits.length) '0' ++ digits

/-- The digits of a fraction without the zeros at its end. -/
def dropTrailingZeros (digits : List Char) : List Char :=
  (digits.reverse.dropWhile (· == '0')).reverse

/-- The positional text of a decimal. -/
def Decimal.positional (d : Decimal) : List Char :=
  if 0 ≤ d.exponent then Nat.toDigits 10 (d.digits * Nat.pow 10 d.exponent.toNat)
  else
    let places := (-d.exponent).toNat
    let unit := Nat.pow 10 places
    let whole := Nat.toDigits 10 (d.digits / unit)
    match dropTrailingZeros (paddedDigits places (d.digits % unit)) with
    | []       => whole
    | fraction => whole ++ '.' :: fraction

namespace Double

/-- The text of a double. -/
def text (x : Float) : String :=
  let bits := x.toBits.toNat
  let size := bits % signBit
  if infinityBits < size then "NaN"
  else
    let sign := if bits < signBit then "" else "-"
    if size = infinityBits then sign ++ "inf"
    else sign ++ String.ofList (shortest size).positional

end Double

end DeskCalculator
