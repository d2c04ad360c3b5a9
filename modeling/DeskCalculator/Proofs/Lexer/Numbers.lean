import DeskCalculator.Proofs.Decimal.Reading
import DeskCalculator.Proofs.Lexer.Longest
import DeskCalculator.Proofs.Lexer.Tokens

/-!
# Tokens — Numbers

A token that starts with a digit or a point is a number or a bad token.  It is a number if the line
goes on with a numeral there, and then it covers the longest one (`IsLongestNumeral`): the mantissa
with all its digits, and the exponent if there is a digit to it.  Otherwise it is the point alone.

**The longest numeral** (`next_isLongestNumeral`).  The value of a number is what its text is read as,
whole; a text that is a numeral is always read, so a number always has a value, and it is neither
negative nor undefined.
-/

namespace DeskCalculator

/-- The text of a numeral: digits, perhaps with a point and digits behind it, or a point with at least
one digit; and perhaps an exponent. -/
def IsNumeral (text : List Char) : Prop := ∃ n : Numeral, n.Written ∧ n.text = text

/-- `text` is the longest numeral that `line` starts with. -/
structure IsLongestNumeral (text line : List Char) : Prop where
  isNumeral : IsNumeral text
  front : text <+: line
  longest : ∀ other, IsNumeral other → other <+: line → other <+: text

/-! ### The front of a line -/

/-- What is read of a line is the longest numeral at its front. -/
theorem Numeral.isLongestNumeral {line : List Char} {n : Numeral} (h : read? line = some n) :
    IsLongestNumeral n.text line where
  isNumeral := ⟨n, written_of_read? h, rfl⟩
  front := read?_prefix h
  longest := by
    rintro other ⟨m, hm, rfl⟩ ⟨rest, rfl⟩
    obtain ⟨m', hm', hp⟩ := read?_longest hm rest
    cases hm'.symm.trans h
    exact hp

/-- Where nothing is read, no numeral stands. -/
theorem Numeral.not_isNumeral_of_read? {line : List Char} (h : read? line = none) :
    ∀ text, text <+: line → ¬ IsNumeral text := by
  rintro text ⟨rest, rfl⟩ ⟨m, hm, rfl⟩
  obtain ⟨m', hm', -⟩ := read?_longest hm rest
  exact absurd (hm'.symm.trans h) nofun

/-- The kind of a number comes from a numeral. -/
theorem Lexeme.exists_value {c : Char} {rest : List Char} {value : Float}
    (h : (startingWith c rest).kind = .number value) : ∃ n : Numeral, n.value = value := by
  unfold startingWith at h
  split at h
  · cases h
  · split at h
    · rename_i kind hk
      subst h
      revert hk
      unfold Kind.ofOperator?
      split <;> nofun
    · split at h
      · split at h
        · exact ⟨_, Kind.number.inj h⟩
        · cases h
      · split at h
        · cases h
        · cases h

namespace Lexer

/-- A fetch takes the lexeme at the front of what is left of the line. -/
theorem next_of_front {l : Lexer} {j : Journal} {c : Char} {rest : List Char}
    (h : (l.seek j).1.rest = c :: rest) :
    l.next j =
      let x := Lexeme.startingWith c rest
      let taken := (l.seek j).1.take x.kind x.text
      (taken, (check x.kind (l.seek j).2).note (.fetched taken.current)) := by
  simp only [next, fetch, h]

/-- No number is negative or undefined. -/
theorem value_of_next {l : Lexer} {j : Journal} {value : Float}
    (h : (l.next j).1.current.kind = .number value) : 0 ≤ value ∧ value.isNaN = false := by
  cases hr : (l.seek j).1.rest with
  | nil =>
      simp only [next, fetch, hr] at h
      cases h
  | cons c rest =>
      rw [next_of_front hr] at h
      obtain ⟨n, rfl⟩ := Lexeme.exists_value h
      exact n.value_nonneg

end Lexer

/-- **Numerals are the longest match.**  The next token starts with a digit or a point, and `c :: rest`
is what is left of its line there.  If a numeral stands at the front of that, the token takes the
longest one, and no more; its text is one the reader of doubles takes whole, and its value is what is
read.  If none does, the token is a point, which is taken alone and reported as bad.  The reader takes
every numeral, so it never fails on the text of a token; and no number is negative or undefined. -/
theorem next_isLongestNumeral (l : Lexer) (j : Journal) {c : Char} {rest : List Char}
    (hs : (l.seek j).1.rest = c :: rest) (hc : c.isDigit = true ∨ c = '.') :
    let before := l.seek j
    let after := l.next j
    ((∃ text value, IsLongestNumeral text (c :: rest) ∧
        Double.parse? text = some value ∧ 0 ≤ value ∧ value.isNaN = false ∧
        after.1.current = before.1.token (.number value) text ∧
        text ++ after.1.rest = c :: rest ∧
        after.2 = before.2.note (.fetched after.1.current)) ∨
      (c = '.' ∧ (∀ text, text <+: c :: rest → ¬ IsNumeral text) ∧
        after.1.current = before.1.token (.bad '.') ['.'] ∧ after.1.rest = rest ∧
        after.2 = (before.2.report (.badToken '.')).note (.fetched after.1.current))) ∧
    (∀ text, IsNumeral text → ∃ value, Double.parse? text = some value ∧
      0 ≤ value ∧ value.isNaN = false) ∧
    ∀ (l : Lexer) (j : Journal) (value : Float), (l.next j).1.current.kind = .number value →
      0 ≤ value ∧ value.isNaN = false := by
  intro before after
  have hread {text : List Char} : IsNumeral text → ∃ value, Double.parse? text = some value ∧
      0 ≤ value ∧ value.isNaN = false := by
    rintro ⟨n, hn, rfl⟩
    exact ⟨n.value, Double.parse?_text hn, n.value_nonneg⟩
  refine ⟨?_, fun text => hread, fun l j value => Lexer.value_of_next⟩
  have hn : after = _ := Lexer.next_of_front hs
  rw [Lexeme.startingWith_of_digit hc] at hn
  cases hr : Numeral.read? (c :: rest) with
  | some n =>
      rw [hr] at hn
      have hl := Numeral.isLongestNumeral hr
      refine .inl ⟨n.text, n.value, hl, Double.parse?_text (Numeral.written_of_read? hr),
        n.value_nonneg.1, n.value_nonneg.2, ?_, ?_, ?_⟩
      · rw [hn]
        rfl
      · rw [hn]
        show n.text ++ before.1.rest.drop n.text.length = c :: rest
        rw [hs]
        exact List.prefix_iff_eq_append.mp hl.front
      · rw [hn]
        rfl
  | none =>
      rw [hr] at hn
      obtain rfl := hc.resolve_left fun hd => Numeral.read?_ne_none hd rest hr
      refine .inr ⟨rfl, Numeral.not_isNumeral_of_read? hr, ?_, ?_, ?_⟩
      · rw [hn]
        rfl
      · rw [hn]
        show before.1.rest.drop 1 = rest
        rw [hs]
        rfl
      · rw [hn]
        rfl

/-- An exponent without digits is left to what follows. -/
theorem next_isLongestNumeral_unfinished :
    let l := Lexer.ofInput (.ofString " 2.e+")
    let j := Journal.ofSink .silent
    (l.seek j).1.rest = ['2', '.', 'e', '+'] ∧ '2'.isDigit = true ∧
      IsLongestNumeral ['2', '.'] ['2', '.', 'e', '+'] ∧ Double.parse? ['2', '.'] = some 2 ∧
      (l.next j).1.current = ⟨.number 2, ⟨1, 1, 3⟩⟩ := by
  intro l j
  have hs : (l.seek j).1.rest = ['2', '.', 'e', '+'] := by decide +kernel
  have hr : (l.next j).1.rest = ['e', '+'] := by decide +kernel
  have hk : (l.next j).1.current = ⟨.number 2, ⟨1, 1, 3⟩⟩ := by decide +kernel
  obtain ⟨⟨text, value, hl, hv, -, -, ht, ha, -⟩ | ⟨hp, -⟩, -⟩ :=
    next_isLongestNumeral l j hs (.inl rfl)
  · rw [hr] at ha
    obtain rfl : text = ['2', '.'] :=
      List.append_cancel_right (show text ++ ['e', '+'] = ['2', '.'] ++ ['e', '+'] from ha)
    obtain rfl : value = 2 := Kind.number.inj (congrArg Token.kind (ht.symm.trans hk))
    exact ⟨hs, rfl, hl, hv, hk⟩
  · exact absurd hp (by decide)

end DeskCalculator
