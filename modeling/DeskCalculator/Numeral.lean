import DeskCalculator.Decimal.Basic

/-!
# Tokens — Numerals

A numeral is a mantissa and perhaps an exponent.  The mantissa is digits with an optional point and
optional digits after it, or a point with at least one digit; the exponent is `e` or `E`, an optional
sign and at least one digit.  `read?` takes the numeral at the front of a text: an exponent mark with
no digits behind it is left to what follows.  The value is the double nearest to the number written.
-/

namespace DeskCalculator

/-- An exponent as it is written. -/
structure Exponent where
  mark : Char
  sign : Option Char
  digits : List Char
  deriving DecidableEq, Repr

namespace Exponent

/-- An optional sign, and what follows it. -/
def splitSign : List Char → Option Char × List Char
  | '+' :: rest => (some '+', rest)
  | '-' :: rest => (some '-', rest)
  | rest        => (none, rest)

/-- The exponent at the front of a text. -/
def read? : List Char → Option Exponent
  | [] => none
  | mark :: rest =>
      if mark = 'e' ∨ mark = 'E' then
        match splitSign rest with
        | (sign, rest) =>
            match rest.takeWhile Char.isDigit with
            | []     => none
            | digits => some ⟨mark, sign, digits⟩
      else none

def text (e : Exponent) : List Char := e.mark :: (e.sign.toList ++ e.digits)

/-- Digits count until the exponent has passed `65535`: by then any further digit is without effect
on the value, unless the mantissa is as long as the exponent is large. -/
def size (digits : List Char) : Nat :=
  digits.foldl (fun e d => if e < 0x10000 then 10 * e + (d.toNat - '0'.toNat) else e) 0

def value (e : Exponent) : Int :=
  if e.sign = some '-' then -Int.ofNat (size e.digits) else Int.ofNat (size e.digits)

end Exponent

/-- A numeral as it is written; `fraction` is what follows the point, if there is one. -/
structure Numeral where
  whole : List Char
  fraction : Option (List Char)
  exponent : Option Exponent
  deriving DecidableEq, Repr

namespace Numeral

/-- A point and the digits after it, and what follows them. -/
def splitFraction : List Char → Option (List Char) × List Char
  | '.' :: rest => (some (rest.takeWhile Char.isDigit), rest.dropWhile Char.isDigit)
  | rest        => (none, rest)

/-- The numeral at the front of a text; none if its mantissa would have no digit. -/
def read? (text : List Char) : Option Numeral :=
  let whole := text.takeWhile Char.isDigit
  match splitFraction (text.dropWhile Char.isDigit) with
  | (fraction, rest) =>
      if whole.isEmpty && (fraction.getD []).isEmpty then none
      else some ⟨whole, fraction, Exponent.read? rest⟩

def text (n : Numeral) : List Char :=
  n.whole ++ (n.fraction.elim [] ('.' :: ·) ++ n.exponent.elim [] Exponent.text)

/-- The number written: all digits of the mantissa, at the power of ten of the last of them. -/
def decimal (n : Numeral) : Decimal :=
  let fraction := n.fraction.getD []
  ⟨Nat.ofDigitChars 10 (n.whole ++ fraction) 0,
    n.exponent.elim 0 Exponent.value - Int.ofNat fraction.length⟩

def value (n : Numeral) : Float := n.decimal.toDouble

end Numeral

end DeskCalculator
