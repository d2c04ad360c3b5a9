import DeskCalculator.Proofs.Lexer.Text

/-!
# Tokens — Up to a separator and beyond

Two lexers side by side, the second of which has only the part of the first one's text that stands
before a separator (`Apart`).  They fetch tokens of the same kinds until the second is exhausted: its
terminator is then where the first has the separator, which is a terminator too, and the first is left
with the text behind the separator (`fetches_apart`).  Lexers with the same text go on together
(`fetches_together`).
-/

namespace DeskCalculator

/-- A character that ends statements. -/
def Separates (c : Char) : Prop := c = '\n' ∨ c = ';'

namespace Separates
variable {sep : Char} (h : Separates sep)
include h

theorem delimits : Delimits sep := by
  rcases h with rfl | rfl <;> decide

theorem not_blank : isBlank sep = false := by
  rcases h with rfl | rfl <;> rfl

theorem startingWith (rest : List Char) : Lexeme.startingWith sep rest = ⟨.terminator, [sep]⟩ :=
  if_pos h

end Separates

namespace Lexer

/-- The lexers fetch tokens of one kind and are in `P` after them, whatever their journals. -/
def FetchAlike (P : Lexer → Lexer → Prop) (l m : Lexer) : Prop :=
  ∀ j k, ∃ kind l' m', l.Fetches j kind l' ∧ m.Fetches k kind m' ∧ P l' m'

/-- The lexers have the same text to come, or both have found the end of their inputs. -/
def Together (l m : Lexer) : Prop :=
  (∃ text, l.Spells text ∧ m.Spells text) ∨ (l.AtEnd ∧ m.AtEnd)

theorem fetches_together {l m : Lexer} (h : Together l m) : FetchAlike Together l m := by
  intro j k
  obtain ⟨text, hl, hm⟩ | ⟨hl, hm⟩ := h
  · cases ht : text.dropWhile isBlank with
    | nil =>
        obtain ⟨l', hl', ha⟩ := fetches_of_blank hl ht j
        obtain ⟨m', hm', ha'⟩ := fetches_of_blank hm ht k
        exact ⟨_, l', m', hl', hm', .inr ⟨ha, ha'⟩⟩
    | cons c rest =>
        obtain ⟨l', hl', hs⟩ := fetches_of_cons hl ht j
        obtain ⟨m', hm', hs'⟩ := fetches_of_cons hm ht k
        exact ⟨_, l', m', hl', hm', .inl ⟨_, hs, hs'⟩⟩
  · obtain ⟨l', hl', ha⟩ := fetches_of_atEnd hl j
    obtain ⟨m', hm', ha'⟩ := fetches_of_atEnd hm k
    exact ⟨_, l', m', hl', hm', .inr ⟨ha, ha'⟩⟩

theorem Together.exhausted_eq {l m : Lexer} : Together l m → m.exhausted = l.exhausted
  | .inl ⟨_, hl, hm⟩ => hm.1.trans hl.1.symm
  | .inr ⟨hl, hm⟩ => hm.1.trans hl.1.symm

variable (sep : Char) (behind : List Char)

/-- The first lexer has the text of the second to come, then the separator and what stands behind
it. -/
def Before (l m : Lexer) : Prop := ∃ text, l.Spells (text ++ sep :: behind) ∧ m.Spells text

/-- The first lexer has passed the separator, and the second has found the end of its input. -/
def Past (l m : Lexer) : Prop := l.current.kind = .terminator ∧ l.Spells behind ∧ m.AtEnd

/-- The second lexer has what the first one has before the separator. -/
def Apart (l m : Lexer) : Prop := Before sep behind l m ∨ Past behind l m

variable {sep behind}

theorem fetches_apart (hsep : Separates sep) {l m : Lexer} (h : Before sep behind l m) :
    FetchAlike (Apart sep behind) l m := by
  obtain ⟨text, hl, hm⟩ := h
  intro j k
  have hd := dropWhile_delimited hsep.not_blank text behind
  cases ht : text.dropWhile isBlank with
  | nil =>
      rw [ht, List.nil_append] at hd
      obtain ⟨l', hl', hs⟩ := fetches_of_cons hl hd j
      obtain ⟨m', hm', ha⟩ := fetches_of_blank hm ht k
      rw [hsep.startingWith] at hl' hs
      exact ⟨_, l', m', hl', hm', .inr ⟨hl'.2, hs, ha⟩⟩
  | cons c rest =>
      rw [ht, List.cons_append] at hd
      obtain ⟨l', hl', hs⟩ := fetches_of_cons hl hd j
      obtain ⟨m', hm', hs'⟩ := fetches_of_cons hm ht k
      rw [Lexeme.startingWith_delimited hsep.delimits] at hl' hs
      rw [← List.cons_append, List.drop_append_of_le_length (length_startingWith_le c rest)] at hs
      exact ⟨_, l', m', hl', hm', .inl ⟨_, hs, hs'⟩⟩

end Lexer

theorem toList_separated (a b : String) (sep : Char) :
    (a ++ .singleton sep ++ b).toList = a.toList ++ sep :: b.toList := by simp

theorem before_ofString (sep : Char) (a b : String) :
    Lexer.Before sep b.toList (.ofInput (.ofString (a ++ .singleton sep ++ b)))
      (.ofInput (.ofString a)) :=
  ⟨_, toList_separated a b sep ▸ Lexer.spells_ofInput _, Lexer.spells_ofInput a⟩

end DeskCalculator
