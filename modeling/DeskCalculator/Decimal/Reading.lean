import DeskCalculator.Numeral

/-!
# Decimals — Reading a double

The reader of doubles takes a whole text: perhaps a sign, and then a number or one of the words for the
values that are no numbers, in letters of either case (`parse?`).  A numeral with anything behind it is
not such a text.
-/

namespace DeskCalculator.Double

/-- Reads a text without a sign. -/
def parseUnsigned? (text : List Char) : Option Float :=
  let word := text.map Char.toLower
  if word = ['i', 'n', 'f'] ∨ word = ['i', 'n', 'f', 'i', 'n', 'i', 't', 'y'] then
    some (Float.ofBits (UInt64.ofNat infinityBits))
  else if word = ['n', 'a', 'n'] then some (0 / 0)
  else
    match Numeral.read? text with
    | some numeral => if numeral.text = text then some numeral.value else none
    | none         => none

/-- Reads a whole text as a double. -/
def parse? (text : List Char) : Option Float :=
  match Exponent.splitSign text with
  | (some '-', rest) => (parseUnsigned? rest).map (- ·)
  | (_, rest)        => parseUnsigned? rest

end DeskCalculator.Double
