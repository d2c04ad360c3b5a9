import DeskCalculator.Numeral
import DeskCalculator.Token

/-!
# Tokens — Lexemes

The token at the front of a line that does not start with a blank: its kind and its text.  Newlines,
`;`, operators and parentheses are single characters; a name and a numeral reach as far as they can;
any other character, and a point with no digit next to it, is a bad token of one character.
-/

namespace DeskCalculator

/-- Blanks separate tokens and end no statement. -/
def isBlank (c : Char) : Bool :=
  c == ' ' || c == '\t' || c == '\r' || c == '\x0B' || c == '\x0C'

/-- A kind with the characters it was read from. -/
structure Lexeme where
  kind : Kind
  text : List Char
  deriving DecidableEq

namespace Lexeme

/-- The lexeme that starts with `c`, before `rest`.  There is no case for a numeral that the reader of
doubles refuses: it takes every numeral (`Double.parse?_text`), so such a case would not be reached. -/
def startingWith (c : Char) (rest : List Char) : Lexeme :=
  if c = '\n' ∨ c = ';' then ⟨.terminator, [c]⟩
  else
    match Kind.ofOperator? c with
    | some kind => ⟨kind, [c]⟩
    | none =>
        if c.isDigit ∨ c = '.' then
          match Numeral.read? (c :: rest) with
          | some numeral => ⟨.number numeral.value, numeral.text⟩
          | none         => ⟨.bad c, [c]⟩
        else if c.isAlpha then
          let name := c :: rest.takeWhile Char.isAlphanum
          ⟨.name (String.ofList name), name⟩
        else ⟨.bad c, [c]⟩

/-- The number of bytes of a text. -/
def byteLength (text : List Char) : Nat := text.foldr (fun c n => c.utf8Size + n) 0

/-! ### A lexeme takes at least one character -/

theorem text_numeral_ne_nil {text : List Char} {n : Numeral} (h : Numeral.read? text = some n) :
    n.text ≠ [] := by
  simp only [Numeral.read?] at h
  split at h
  · cases h
  · rename_i hne
    cases h
    intro ht
    simp only [Numeral.text, List.append_eq_nil_iff] at ht
    obtain ⟨hw, hf, -⟩ := ht
    apply hne
    rw [hw]
    cases hs : (Numeral.splitFraction (text.dropWhile Char.isDigit)).1 with
    | none => rfl
    | some fraction => rw [hs] at hf; cases hf

theorem text_startingWith_ne_nil (c : Char) (rest : List Char) :
    (startingWith c rest).text ≠ [] := by
  unfold startingWith
  split
  · simp
  · split
    · simp
    · split
      · split
        · exact text_numeral_ne_nil (by assumption)
        · simp
      · split <;> simp

end Lexeme

end DeskCalculator
