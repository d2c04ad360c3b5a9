import DeskCalculator.Lexeme

/-!
# Tokens — What ends a lexeme

A lexeme looks no further than the first character that can go on with no lexeme: one that is neither
a letter nor a digit, nor a point, nor a sign (`Delimits`).  What stands behind such a character has
no influence on the lexeme before it (`startingWith_delimited`), and a lexeme is always a prefix of
the text it is read from (`startingWith_prefix`).
-/

namespace DeskCalculator

/-- No complete name or numeral goes on with `c`. -/
def EndsWord (c : Char) : Prop := c.isAlphanum = false ∧ c ≠ '.'

instance : DecidablePred EndsWord := fun _ => inferInstanceAs (Decidable (_ ∧ _))

namespace EndsWord
variable {x : Char}

theorem not_isDigit (h : EndsWord x) : x.isDigit = false :=
  (Bool.or_eq_false_iff.mp h.1).2

theorem not_exponent (h : EndsWord x) : ¬(x = 'e' ∨ x = 'E') := by
  rintro (rfl | rfl)
  · exact absurd h.1 (by decide)
  · exact absurd h.1 (by decide)

end EndsWord

/-- No lexeme takes `c` unless it starts with it. -/
def Delimits (c : Char) : Prop := c.isAlphanum = false ∧ c ≠ '.' ∧ c ≠ '+' ∧ c ≠ '-'

instance : DecidablePred Delimits := fun _ => inferInstanceAs (Decidable (_ ∧ _))

namespace Delimits
variable {x : Char}

theorem endsWord (h : Delimits x) : EndsWord x := ⟨h.1, h.2.1⟩

theorem not_isDigit (h : Delimits x) : x.isDigit = false := h.endsWord.not_isDigit

theorem not_exponent (h : Delimits x) : ¬(x = 'e' ∨ x = 'E') := h.endsWord.not_exponent

end Delimits

section Runs
variable {α : Type} {p : α → Bool} {x : α} (hx : p x = false) (u v : List α)
include hx

theorem takeWhile_delimited : (u ++ x :: v).takeWhile p = u.takeWhile p := by
  induction u with
  | nil => simp [hx]
  | cons y u ih => rw [List.cons_append, List.takeWhile_cons, List.takeWhile_cons, ih]

theorem dropWhile_delimited : (u ++ x :: v).dropWhile p = u.dropWhile p ++ x :: v := by
  induction u with
  | nil => simp [hx]
  | cons y u ih =>
      rw [List.cons_append, List.dropWhile_cons, List.dropWhile_cons, ih]
      split <;> rfl

end Runs

/-! ### The parts of a numeral -/

section Delimited
variable {x : Char} (h : Delimits x) (u v : List Char)
include h

theorem Exponent.splitSign_delimited :
    splitSign (u ++ x :: v) = ((splitSign u).1, (splitSign u).2 ++ x :: v) := by
  obtain ⟨-, -, hp, hm⟩ := h
  cases u with
  | nil =>
      exact splitSign.eq_3 _ (fun _ e => hp (List.cons.inj e).1) fun _ e => hm (List.cons.inj e).1
  | cons c u =>
      by_cases hc : c = '+'
      · subst hc; rfl
      by_cases hd : c = '-'
      · subst hd; rfl
      have hs : ∀ w, splitSign (c :: w) = (none, c :: w) := fun w =>
        splitSign.eq_3 _ (fun _ e => hc (List.cons.inj e).1) fun _ e => hd (List.cons.inj e).1
      rw [List.cons_append, hs, hs]
      rfl

theorem Exponent.read?_delimited : Exponent.read? (u ++ x :: v) = Exponent.read? u := by
  cases u with
  | nil => exact if_neg h.not_exponent
  | cons mark u =>
      simp only [List.cons_append, read?]
      rw [splitSign_delimited h]
      dsimp only
      rw [takeWhile_delimited h.not_isDigit]

theorem Numeral.splitFraction_delimited :
    splitFraction (u ++ x :: v) = ((splitFraction u).1, (splitFraction u).2 ++ x :: v) := by
  cases u with
  | nil => exact splitFraction.eq_2 _ fun _ e => h.2.1 (List.cons.inj e).1
  | cons c u =>
      by_cases hc : c = '.'
      · subst hc
        simp only [List.cons_append, splitFraction]
        rw [takeWhile_delimited h.not_isDigit, dropWhile_delimited h.not_isDigit]
      · have hs : ∀ w, splitFraction (c :: w) = (none, c :: w) := fun w =>
          splitFraction.eq_2 _ fun _ e => hc (List.cons.inj e).1
        rw [List.cons_append, hs, hs]
        rfl

theorem Numeral.read?_delimited : Numeral.read? (u ++ x :: v) = Numeral.read? u := by
  simp only [Numeral.read?]
  rw [takeWhile_delimited h.not_isDigit, dropWhile_delimited h.not_isDigit,
    splitFraction_delimited h]
  dsimp only
  rw [Exponent.read?_delimited h]

/-- A lexeme does not depend on what stands behind a delimiter. -/
theorem Lexeme.startingWith_delimited (c : Char) :
    startingWith c (u ++ x :: v) = startingWith c u := by
  unfold startingWith
  rw [← List.cons_append, Numeral.read?_delimited h, takeWhile_delimited h.1]

end Delimited

/-! ### A lexeme is a prefix -/

theorem Exponent.splitSign_append (text : List Char) :
    (splitSign text).1.toList ++ (splitSign text).2 = text := by
  unfold splitSign
  split <;> rfl

theorem Exponent.read?_prefix {text : List Char} {e : Exponent} (h : Exponent.read? text = some e) :
    e.text <+: text := by
  cases text with
  | nil => cases h
  | cons mark rest =>
      simp only [read?] at h
      split at h
      · have ha := splitSign_append rest
        have ht := List.takeWhile_prefix Char.isDigit (l := (splitSign rest).2)
        split at h
        · cases h
        · cases h
          refine (List.prefix_cons_inj mark).mpr ?_
          conv => rhs; rw [← ha]
          exact (List.prefix_append_right_inj _).mpr ht
      · cases h

theorem Numeral.splitFraction_append (text : List Char) :
    (splitFraction text).1.elim [] ('.' :: ·) ++ (splitFraction text).2 = text := by
  unfold splitFraction
  split
  · exact congrArg ('.' :: ·) List.takeWhile_append_dropWhile
  · rfl

theorem Numeral.read?_prefix {text : List Char} {n : Numeral} (h : Numeral.read? text = some n) :
    n.text <+: text := by
  have hw := List.takeWhile_append_dropWhile (p := Char.isDigit) (l := text)
  have hf := splitFraction_append (text.dropWhile Char.isDigit)
  simp only [Numeral.read?] at h
  split at h
  · cases h
  · cases h
    have he : (Exponent.read? (splitFraction (text.dropWhile Char.isDigit)).2).elim []
        Exponent.text <+: (splitFraction (text.dropWhile Char.isDigit)).2 := by
      cases hr : Exponent.read? (splitFraction (text.dropWhile Char.isDigit)).2 with
      | none => exact List.nil_prefix
      | some e => exact Exponent.read?_prefix hr
    -- digits, then a point with its digits, then the exponent, each where the last one ended
    conv => rhs; rw [← hw, ← hf]
    exact (List.prefix_append_right_inj _).mpr ((List.prefix_append_right_inj _).mpr he)

/-- The text of a lexeme is the front of the text it was read from. -/
theorem Lexeme.startingWith_prefix (c : Char) (rest : List Char) :
    (startingWith c rest).text <+: c :: rest := by
  have hs : [c] <+: c :: rest := ⟨rest, rfl⟩
  unfold startingWith
  split
  · exact hs
  · split
    · exact hs
    · split
      · split
        · exact Numeral.read?_prefix (by assumption)
        · exact hs
      · split
        · exact (List.prefix_cons_inj _).mpr (List.takeWhile_prefix _)
        · exact hs

end DeskCalculator
