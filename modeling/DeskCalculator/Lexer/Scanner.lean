import DeskCalculator.Lexer
import DeskCalculator.Lexer.Cursor

/-!
# Tokens — Scanners

A `Scanner` is a lexer whose place on its line is a cursor, so each of its looks at the line is checked,
and the span of a token must not end before it starts.  It takes one character after the other, and asks
for a line when its own is scanned; then there must be a character to take.  A character that is taken is
one less of the line, or the first of another line (`bump?_progress`).
-/

namespace DeskCalculator
open Lexeme (byteLength)

/-- A lexer that keeps its place as a number of bytes. -/
structure Scanner where
  input : Input
  cursor : Cursor
  lineNumber : UInt32
  exhausted : Bool
  current : Token
  deriving DecidableEq

/-- The place of a token; it must not end before it starts. -/
def Span.ofOffsets? (line : UInt32) (start stop : Nat) : Option Span :=
  if spanOffset start ≤ spanOffset stop then some ⟨line, spanOffset start, spanOffset stop⟩ else none

namespace Scanner

/-- Goes on with another input, from its first line. -/
def setInput (s : Scanner) (input : Input) : Scanner := ⟨input, ⟨[], 0⟩, 0, false, s.current⟩

/-- The scanner at the end of its input. -/
def exhaust (s : Scanner) (reader : Reader) : Scanner :=
  { s with input := ⟨s.input.hold, reader⟩, cursor := ⟨[], 0⟩, exhausted := true }

/-- Reads a line, and tells whether there is one. -/
def refill (s : Scanner) (j : Journal) : Bool × Scanner × Journal :=
  if s.exhausted then (false, s, j)
  else
    match s.input.reader.readLine with
    | (.line bytes, reader) =>
        (true,
          { s with
            input := ⟨s.input.hold, reader⟩
            cursor := ⟨Utf8.decode bytes, 0⟩
            lineNumber := s.lineNumber + 1 }, j)
    | (.endOfInput, reader) => (false, s.exhaust reader, j)
    | (.failed message, reader) => (false, s.exhaust reader, j.note (.readFailed message s.lineNumber))

/-- Takes the character at the position. -/
def take? (s : Scanner) (j : Journal) : Option (Option Char × Scanner × Journal) :=
  s.cursor.take?.map fun taken => (some taken.1, { s with cursor := taken.2 }, j)

/-- Takes a character, of the next line if this one is scanned; none at the end of the input. -/
def bump? (s : Scanner) (j : Journal) : Option (Option Char × Scanner × Journal) :=
  if byteLength s.cursor.line ≤ s.cursor.pos then
    match s.refill j with
    | (true, s, j)  => s.take? j
    | (false, s, j) => some (none, s, j)
  else s.take? j

/-- The measure of what can still be read. -/
def unread (s : Scanner) : Nat := if s.exhausted then 0 else s.input.reader.size + 1

/-- The measure of what is left of the line. -/
def left (s : Scanner) : Nat := byteLength s.cursor.line - s.cursor.pos

/-- A character that is taken leaves nothing but the cursor changed. -/
theorem eq_of_take? {s s' : Scanner} {j j' : Journal} {c : Char}
    (h : s.take? j = some (some c, s', j')) :
    s' = { s with cursor := ⟨s.cursor.line, s.cursor.pos + c.utf8Size⟩ } := by
  obtain ⟨⟨d, cursor⟩, ht, he⟩ := Option.map_eq_some_iff.mp h
  cases he
  rw [Cursor.eq_of_take? ht]

/-- A line that is read leaves less to read. -/
theorem refill_progress {s s' : Scanner} {j j' : Journal} (h : s.refill j = (true, s', j')) :
    s'.unread < s.unread := by
  unfold refill at h
  split at h
  · cases h
  · rename_i hx
    split at h
    · rename_i bytes reader hr
      cases h
      obtain ⟨hne, hle⟩ := Reader.size_readLine (congrArg Prod.fst hr)
      have hp := List.length_pos_iff.mpr hne
      rw [hr] at hle
      rw [unread, unread, if_neg hx, if_neg hx]
      dsimp only at hle ⊢
      omega
    · cases h
    · cases h

/-- A character is one less of the line, or the first of another line. -/
theorem bump?_progress {s s' : Scanner} {j j' : Journal} {c : Char}
    (h : s.bump? j = some (some c, s', j')) :
    s'.unread < s.unread ∨ s'.unread = s.unread ∧ s'.left < s.left := by
  unfold bump? at h
  split at h
  · split at h
    · rename_i t k hr
      obtain rfl := eq_of_take? h
      exact .inl (show t.unread < s.unread from refill_progress hr)
    · cases h
  · obtain rfl := eq_of_take? h
    have hc := c.utf8Size_pos
    refine .inr ⟨rfl, ?_⟩
    simp only [left]
    omega

/-- Passes over blanks and takes the character behind them. -/
def front? (s : Scanner) (j : Journal) : Option (Option Char × Scanner × Journal) :=
  match _ : s.bump? j with
  | some (some c, s', j') => if isBlank c then s'.front? j' else some (some c, s', j')
  | some (none, s', j')   => some (none, s', j')
  | none                  => none
termination_by (s.unread, s.left)
decreasing_by
  rename_i h _
  rcases bump?_progress h with hlt | ⟨heq, hlt⟩
  · exact .left _ _ hlt
  · rw [heq]
    exact .right _ hlt

/-- Fetches the next token. -/
def get? (s : Scanner) (j : Journal) : Option (Scanner × Journal) := do
  let (first, s, j) ← s.front? j
  let (start, kind, cursor) ← s.cursor.token? first
  let token : Token := ⟨kind, ← Span.ofOffsets? s.lineNumber start cursor.pos⟩
  return ({ s with cursor := cursor, current := token }, (Lexer.check kind j).note (.fetched token))

end Scanner

namespace Lexer

/-- The scanner at the place of a lexer. -/
def scanner (l : Lexer) : Scanner :=
  ⟨l.input, ⟨l.line, l.offset⟩, l.lineNumber, l.exhausted, l.current⟩

/-- What the owner of a lexer may do with it. -/
inductive Step where
  | get (j : Journal)
  | setInput (input : Input)

/-- The lexer after a step. -/
def perform (l : Lexer) : Step → Lexer
  | .get j          => (l.next j).1
  | .setInput input => l.setInput input

/-- The lexer after some steps, one after the other. -/
def performAll (l : Lexer) (steps : List Step) : Lexer := steps.foldl perform l

end Lexer

namespace Scanner

/-- The scanner after a step, if every check is passed. -/
def perform? (s : Scanner) : Lexer.Step → Option Scanner
  | .get j          => (s.get? j).map Prod.fst
  | .setInput input => some (s.setInput input)

/-- The scanner after some steps, if every check is passed. -/
def performAll? (s : Scanner) (steps : List Lexer.Step) : Option Scanner := steps.foldlM perform? s

end Scanner

end DeskCalculator
