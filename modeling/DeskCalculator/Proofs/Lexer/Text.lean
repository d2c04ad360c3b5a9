import DeskCalculator.Proofs.Lexer.Delimiter
import DeskCalculator.Proofs.Lexer.Fetch
import DeskCalculator.Proofs.Reader.Lines

/-!
# Tokens — The text that is still to come

What a lexer still has in front of it is one text: the rest of its line, and the characters its
reader will deliver (`Spells`).  Where that text is cut into lines does not matter to the tokens:
every line but the last ends with a newline, and no lexeme looks past one.  So the next token is the
lexeme at the front of the text without its leading blanks, and what follows the lexeme is the text
to come after it (`fetches_of_cons`); a text of blanks is the end of the input (`fetches_of_blank`),
and there the lexer stays (`fetches_of_atEnd`).
-/

namespace DeskCalculator

/-- The line has a newline at its end, or nothing at all. -/
def Ended (line : List Char) : Prop := ∀ c ∈ line.getLast?, c = '\n'

theorem Ended.of_suffix {line rest : List Char} (h : Ended line) (hs : rest <:+ line) :
    Ended rest := by
  obtain ⟨front, rfl⟩ := hs
  intro c hc
  refine h c ?_
  rw [List.getLast?_append, Option.mem_def.mp hc]
  rfl

theorem ended_firstLine {text : List Char} (h : afterLine '\n' text ≠ []) :
    Ended (firstLine '\n' text) := by
  obtain ⟨u, hu⟩ := (firstLine_ends '\n' text).resolve_right h
  intro c hc
  rw [hu, List.getLast?_concat] at hc
  exact (Option.some.inj hc).symm

/-- Past the end of a line no lexeme looks. -/
theorem Lexeme.startingWith_ended {c : Char} {rest : List Char} (h : Ended (c :: rest))
    (text : List Char) : startingWith c (rest ++ text) = startingWith c rest := by
  have hn : Delimits '\n' := by decide
  rcases List.eq_nil_or_concat rest with rfl | ⟨front, d, rfl⟩
  · obtain rfl := h c rfl
    rfl
  · have hd := h d (by rw [List.concat_eq_append, ← List.cons_append]; exact List.getLast?_concat)
    rw [hd, List.concat_eq_append, List.append_assoc]
    exact (startingWith_delimited hn front text c).trans
      (startingWith_delimited hn front [] c).symm

theorem length_startingWith_le (c : Char) (rest : List Char) :
    (Lexeme.startingWith c rest).text.length ≤ (c :: rest).length :=
  (Lexeme.startingWith_prefix c rest).length_le

namespace Lexer

/-- The lexer has `text` to come. -/
def Spells (l : Lexer) (text : List Char) : Prop :=
  l.exhausted = false ∧ ∃ later total, l.input.reader.Spells later total ∧
    text = l.rest ++ later ∧ (later ≠ [] → Ended l.rest)

/-- The lexer has found the end of its input. -/
def AtEnd (l : Lexer) : Prop := l.exhausted = true ∧ l.rest = []

theorem spells_ofInput (text : String) : (ofInput (.ofString text)).Spells text.toList :=
  ⟨rfl, _, _, Reader.spells_ofString text, rfl, fun _ => nofun⟩

theorem spells_setInput (l : Lexer) (text : String) :
    (l.setInput (.ofString text)).Spells text.toList :=
  ⟨rfl, _, _, Reader.spells_ofString text, rfl, fun _ => nofun⟩

/-! ### Lines -/

theorem refill_of_spells_nil {l : Lexer} {total : Nat} (h : l.input.reader.Spells [] total)
    (j : Journal) : ∃ r, l.refill j = (l.exhaust r, j) ∧ r.Spells [] total := by
  obtain ⟨r, hr, hs⟩ := Reader.readLine_of_spells_nil h
  exact ⟨r, by rw [refill, hr], hs⟩

theorem refill_of_spells {l : Lexer} {text : List Char} {total : Nat}
    (h : l.input.reader.Spells text total) (ht : text ≠ []) (j : Journal) :
    ∃ r, l.refill j = (l.atLine r (firstLine '\n' text), j) ∧
      r.Spells (afterLine '\n' text) total := by
  obtain ⟨bytes, r, hr, hd, hs⟩ := Reader.readLine_of_spells h ht
  exact ⟨r, by rw [refill, hr, ← hd], hs⟩

theorem seek_of_atEnd {l : Lexer} (h : l.AtEnd) (j : Journal) :
    ∃ l', l.seek j = (l', j) ∧ l'.AtEnd := by
  obtain ⟨hx, hr⟩ := h
  exact ⟨l.skipBlanks, seek_exhausted j hx, hx, by rw [skipBlanks, hr]; rfl⟩

theorem seek_of_spells {l : Lexer} {text : List Char} (h : l.Spells text) (j : Journal) :
    ∃ l', l.seek j = (l', j) ∧
      (text.dropWhile isBlank = [] ∧ l'.AtEnd ∨
        l'.rest ≠ [] ∧ l'.Spells (text.dropWhile isBlank)) := by
  fun_induction seek l j generalizing text with
  | case1 l j hc ih =>
      -- the line has run out, so the text to come is that of the reader
      obtain ⟨hx, later, total, hr, rfl, he⟩ := h
      have hl : l.rest.dropWhile isBlank = [] := List.isEmpty_iff.mp hc.1
      have hd : (l.rest ++ later).dropWhile isBlank = later.dropWhile isBlank := by
        rw [List.dropWhile_append, hl]
        rfl
      rw [hd]
      by_cases hn : later = []
      · subst hn
        obtain ⟨r, hf, -⟩ := refill_of_spells_nil (l := l.skipBlanks) hr j
        rw [hf] at ih ⊢
        obtain ⟨l', hs, ha⟩ := seek_of_atEnd (l := l.skipBlanks.exhaust r) ⟨rfl, rfl⟩ j
        exact ⟨l', hs, .inl ⟨rfl, ha⟩⟩
      · obtain ⟨r, hf, hr'⟩ := refill_of_spells (l := l.skipBlanks) hr hn j
        rw [hf] at ih ⊢
        exact ih ⟨hx, _, _, hr', (firstLine_append_afterLine '\n' later).symm, ended_firstLine⟩
  | case2 l j hc =>
      obtain ⟨hx, later, total, hr, rfl, he⟩ := h
      have hn : l.rest.dropWhile isBlank ≠ [] := fun hd => hc ⟨List.isEmpty_iff.mpr hd, hx⟩
      refine ⟨l.skipBlanks, rfl, .inr ⟨hn, hx, later, total, hr, ?_, fun hl => ?_⟩⟩
      · rw [List.dropWhile_append, if_neg (mt List.isEmpty_iff.mp hn)]
        rfl
      · exact (he hl).of_suffix (List.dropWhile_suffix isBlank)

/-! ### Tokens -/

/-- The next token of the lexer is of `kind`, and `l'` is the lexer after it.  A token that is bad is
reported, and nothing but the token is noted. -/
def Fetches (l : Lexer) (j : Journal) (kind : Kind) (l' : Lexer) : Prop :=
  l.next j = (l', (check kind j).note (.fetched l'.current)) ∧ l'.current.kind = kind

theorem fetches_of_seek_atEnd {l l' : Lexer} {j : Journal} (h : l.seek j = (l', j))
    (ha : l'.AtEnd) : ∃ l', l.Fetches j .terminator l' ∧ l'.AtEnd := by
  refine ⟨l'.take .terminator [], ⟨?_, rfl⟩, ha.1, by rw [take, ha.2]; rfl⟩
  simp only [next, h, fetch, ha.2, check]

/-- An exhausted lexer stays so. -/
theorem fetches_of_atEnd {l : Lexer} (h : l.AtEnd) (j : Journal) :
    ∃ l', l.Fetches j .terminator l' ∧ l'.AtEnd := by
  obtain ⟨l', hs, ha⟩ := seek_of_atEnd h j
  exact fetches_of_seek_atEnd hs ha

/-- Behind the last token there is a terminator, and the lexer is exhausted. -/
theorem fetches_of_blank {l : Lexer} {text : List Char} (h : l.Spells text)
    (ht : text.dropWhile isBlank = []) (j : Journal) :
    ∃ l', l.Fetches j .terminator l' ∧ l'.AtEnd := by
  obtain ⟨l', hs, ⟨-, ha⟩ | ⟨hn, -, later, -, -, hr, -⟩⟩ := seek_of_spells h j
  · exact fetches_of_seek_atEnd hs ha
  · rw [ht] at hr
    exact absurd (List.append_eq_nil_iff.mp hr.symm).1 hn

/-- The next token is the lexeme at the front of the text. -/
theorem fetches_of_cons {l : Lexer} {text rest : List Char} {c : Char} (h : l.Spells text)
    (ht : text.dropWhile isBlank = c :: rest) (j : Journal) :
    ∃ l', l.Fetches j (Lexeme.startingWith c rest).kind l' ∧
      l'.Spells ((c :: rest).drop (Lexeme.startingWith c rest).text.length) := by
  obtain ⟨l', hs, ⟨hd, -⟩ | ⟨hn, hx, later, total, hr, ht', he⟩⟩ := seek_of_spells h j
  · rw [ht] at hd
    cases hd
  · obtain ⟨d, line, hl⟩ := List.exists_cons_of_ne_nil hn
    rw [ht, hl, List.cons_append] at ht'
    obtain ⟨rfl, rfl⟩ := List.cons.inj ht'
    -- the last line of the input may be without a newline, but then nothing follows it
    have hw : Lexeme.startingWith c (line ++ later) = Lexeme.startingWith c line := by
      by_cases hlater : later = []
      · rw [hlater, List.append_nil]
      · exact Lexeme.startingWith_ended (hl ▸ he hlater) later
    have hlen := length_startingWith_le c line
    rw [hw]
    refine ⟨l'.take (Lexeme.startingWith c line).kind (Lexeme.startingWith c line).text, ⟨?_, rfl⟩,
      hx, later, total, hr, ?_, fun hlater => ?_⟩
    · simp only [next, hs, fetch, hl]
    · rw [← List.cons_append, List.drop_append_of_le_length hlen, take, hl]
    · exact (he hlater).of_suffix (List.drop_suffix _ _)

end Lexer

end DeskCalculator
