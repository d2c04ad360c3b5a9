import DeskCalculator.Decimal.Reading
import DeskCalculator.Lexeme
import DeskCalculator.Text.Utf8

/-!
# Tokens — Cursors

A line is kept as its bytes, and a place on it as a number of them.  Not every number is a place: it may
lie beyond the line, or inside a character of several bytes.  A `Cursor` is a line and such a number;
each of its moves and each of its looks at the line is checked, and gives nothing if the number is no
place (`cutBytes?`).  With these the parts of a token are scanned, byte by byte where only bytes are
counted.
-/

namespace DeskCalculator

/-- Cuts a text behind its first `n` bytes; there is no such cut beyond the text, or inside a
character. -/
def cutBytes? : List Char → Nat → Option (List Char × List Char)
  | text, 0      => some ([], text)
  | [], _ + 1    => none
  | c :: text, n + 1 =>
      if c.utf8Size ≤ n + 1 then
        (cutBytes? text (n + 1 - c.utf8Size)).map fun cut => (c :: cut.1, cut.2)
      else none

/-- A line, and the number of its bytes that are scanned. -/
structure Cursor where
  line : List Char
  pos : Nat
  deriving DecidableEq, Repr

namespace Cursor

/-! ### Looks and moves -/

/-- What is left of the line. -/
def rest? (c : Cursor) : Option (List Char) := (cutBytes? c.line c.pos).map Prod.snd

/-- The character at the position, if the line goes on. -/
def peek? (c : Cursor) : Option (Option Char) := c.rest?.map List.head?

/-- What is left of the line, as bytes.  Bytes can be counted from any number that is not beyond the
line. -/
def bytes? (c : Cursor) : Option (List UInt8) :=
  if c.pos ≤ (Utf8.encode c.line).length then some ((Utf8.encode c.line).drop c.pos) else none

/-- The text from `start` to the position. -/
def text? (c : Cursor) (start : Nat) : Option (List Char) :=
  if start ≤ c.pos then
    (cutBytes? c.line start).bind fun cut => (cutBytes? cut.2 (c.pos - start)).map Prod.fst
  else none

/-- Goes to another position, which must be a place on the line. -/
def moveTo? (c : Cursor) (pos : Nat) : Option Cursor :=
  (cutBytes? c.line pos).map fun _ => { c with pos := pos }

/-- Takes the character at the position; there must be one. -/
def take? (c : Cursor) : Option (Char × Cursor) := do
  match ← c.rest? with
  | []        => none
  | char :: _ => return (char, ← c.moveTo? (c.pos + char.utf8Size))

/-- Counts the bytes in front that are characters with the property `p`, and passes over them. -/
def eat? (p : Char → Bool) (c : Cursor) : Option (Nat × Cursor) := do
  let count := ((← c.bytes?).takeWhile fun b => p (Char.ofUInt8 b)).length
  return (count, ← c.moveTo? (c.pos + count))

/-! ### The parts of a token -/

/-- Passes over a sign, if there is one. -/
def sign? (c : Cursor) : Option Cursor := do
  let sign ← c.peek?
  if sign = some '+' ∨ sign = some '-' then c.moveTo? (c.pos + 1) else return c

/-- Passes over an exponent, if there are digits to it; else goes back to the mark. -/
def exponent? (c : Cursor) : Option Cursor := do
  let mark ← c.peek?
  if mark = some 'e' ∨ mark = some 'E' then
    let (digits, last) ← (← (← c.moveTo? (c.pos + 1)).sign?).eat? Char.isDigit
    if digits = 0 then last.moveTo? c.pos else return last
  else return c

/-- Passes over a point and the digits behind it, if there is a point, and counts the digits. -/
def fraction? (c : Cursor) : Option (Nat × Cursor) := do
  let point ← c.peek?
  if point = some '.' then (← c.moveTo? (c.pos + 1)).eat? Char.isDigit else return (0, c)

/-- Passes over the digits and the point of a mantissa, and counts the digits. -/
def mantissa? (c : Cursor) : Option (Nat × Cursor) := do
  let (whole, c) ← c.eat? Char.isDigit
  let (fraction, c) ← c.fraction?
  return (whole + fraction, c)

/-- The kind of the numeral at the position, which is `start`.  Without a digit it is a point, and so is
its token, which is bad.  Bad is also what the reader of doubles does not take; no numeral is of this
kind (`Double.parse?_text`), so the warning that would go with it is no event. -/
def number? (c : Cursor) (start : Nat) : Option (Kind × Cursor) := do
  let (digits, c) ← c.mantissa?
  if digits = 0 then return (.bad '.', c)
  let c ← c.exponent?
  match Double.parse? (← c.text? start) with
  | some value => return (.number value, c)
  | none       => return (.bad (((← cutBytes? c.line start).2.head?).getD '.'), c)

/-- The kind of the name whose first letter, at `start`, has been passed. -/
def name? (c : Cursor) (start : Nat) : Option (Kind × Cursor) := do
  let (_, c) ← c.eat? Char.isAlphanum
  return (.name (String.ofList (← c.text? start)), c)

/-- The start of the token whose first character has been passed. -/
def start? (c : Cursor) (first : Char) : Option Nat :=
  if first.utf8Size ≤ c.pos then some (c.pos - first.utf8Size) else none

/-- The kind of the token whose first character, at `start`, has been passed.  A numeral is scanned from
there. -/
def kind? (c : Cursor) (first : Char) (start : Nat) : Option (Kind × Cursor) :=
  if first = '\n' ∨ first = ';' then some (.terminator, c)
  else
    match Kind.ofOperator? first with
    | some kind => some (kind, c)
    | none =>
        if first.isDigit ∨ first = '.' then (c.moveTo? start).bind (number? · start)
        else if first.isAlpha then c.name? start
        else some (.bad first, c)

/-- The start and the kind of the token whose first character has been passed, and the cursor behind it;
without a character it is the terminator at the end of the input. -/
def token? (c : Cursor) : Option Char → Option (Nat × Kind × Cursor)
  | none       => some (c.pos, .terminator, c)
  | some first => (c.start? first).bind fun start => (c.kind? first start).map (start, ·)

theorem eq_of_take? {c c' : Cursor} {char : Char} (h : c.take? = some (char, c')) :
    c' = ⟨c.line, c.pos + char.utf8Size⟩ := by
  obtain ⟨rest, -, h⟩ := Option.bind_eq_some_iff.mp h
  split at h
  · cases h
  · obtain ⟨moved, hm, he⟩ := Option.bind_eq_some_iff.mp h
    obtain ⟨cut, -, rfl⟩ := Option.map_eq_some_iff.mp hm
    cases he
    rfl

end Cursor

end DeskCalculator
