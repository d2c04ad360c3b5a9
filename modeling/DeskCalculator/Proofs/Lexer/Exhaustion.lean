import DeskCalculator.Proofs.Lexer.Tokens

/-!
# Tokens — The end of the input

A lexer that has found the end of its input has nothing left of a line (`WellFormed`), and no fetch
changes that, whatever its reader does.  So each fetch takes a token of at least one byte, or it
finds the end (`next_cases`); and a lexer that has found the end stays as it is: every further fetch
gives the terminator it has already, and leaves the reader alone (`next_of_rests`).
-/

namespace DeskCalculator

theorem Lexeme.byteLength_pos {text : List Char} (h : text ≠ []) : 0 < byteLength text := by
  obtain ⟨c, rest, rfl⟩ := List.exists_cons_of_ne_nil h
  exact Nat.lt_of_lt_of_le c.utf8Size_pos (Nat.le_add_right _ _)

theorem toNat_spanOffset (offset : Nat) : (spanOffset offset).toNat = min offset 0xFFFFFFFF :=
  UInt32.toNat_ofNat_of_lt' (Nat.lt_of_le_of_lt (Nat.min_le_right _ _) (by decide))

theorem spanOffset_ne_zero {offset : Nat} (h : 0 < offset) : spanOffset offset ≠ 0 := by
  intro hz
  have hm := congrArg UInt32.toNat hz
  rw [toNat_spanOffset] at hm
  exact Nat.ne_of_gt (Nat.lt_min.mpr ⟨h, by decide⟩) hm

namespace Lexer

/-- A lexer that is exhausted has nothing left of its line. -/
def WellFormed (l : Lexer) : Prop := l.exhausted = true → l.rest = [] ∧ l.offset = 0

/-- The lexer is exhausted, and the terminator that shows it is its current token. -/
structure Rests (l : Lexer) : Prop where
  exhausted : l.exhausted = true
  rest : l.rest = []
  offset : l.offset = 0
  current : l.current = l.token .terminator []

theorem Rests.kind {l : Lexer} (h : l.Rests) : l.current.kind = .terminator := by
  rw [h.current]
  rfl

theorem Rests.wellFormed {l : Lexer} (h : l.Rests) : l.WellFormed := fun _ => ⟨h.rest, h.offset⟩

theorem Rests.stop {l : Lexer} (h : l.Rests) : l.current.span.stop = 0 := by
  rw [h.current, token, h.offset]
  rfl

theorem wellFormed_ofInput (i : Input) : (ofInput i).WellFormed := nofun

theorem WellFormed.skipBlanks {l : Lexer} (h : l.WellFormed) : l.skipBlanks.WellFormed := by
  intro hx
  obtain ⟨hr, ho⟩ := h hx
  constructor
  · rw [Lexer.skipBlanks, hr]
    rfl
  · rw [Lexer.skipBlanks, hr, ho]
    rfl

/-- Only a lexer that is not exhausted reads, and an end is an end of the line too. -/
theorem wellFormed_refill {l : Lexer} (h : l.exhausted = false) (j : Journal) :
    (l.refill j).1.WellFormed := by
  unfold refill
  split
  · intro hx
    exact absurd (h.symm.trans hx) nofun
  · exact fun _ => ⟨rfl, rfl⟩
  · exact fun _ => ⟨rfl, rfl⟩

theorem WellFormed.seek {l : Lexer} (h : l.WellFormed) (j : Journal) : (l.seek j).1.WellFormed := by
  fun_induction Lexer.seek l j with
  | case1 l j hc ih => exact ih (wellFormed_refill (l := l.skipBlanks) hc.2 j)
  | case2 l j hc => exact h.skipBlanks

/-- The terminator that shows the end of the input. -/
theorem WellFormed.rests_take {l : Lexer} (h : l.WellFormed) (hx : l.exhausted = true) :
    (l.take .terminator []).Rests := by
  obtain ⟨hr, ho⟩ := h hx
  exact ⟨hx, by rw [take, hr]; rfl, by rw [take, ho]; rfl, rfl⟩

/-- A fetch takes some bytes of a line, or it finds the end of the input. -/
theorem next_cases {l : Lexer} (h : l.WellFormed) (j : Journal) :
    (l.next j).1.exhausted = false ∧ (l.next j).1.current.span.stop ≠ 0 ∨ (l.next j).1.Rests := by
  have hw := h.seek j
  have hx := exhausted_seek l j
  simp only [next]
  generalize l.seek j = s at hw hx
  obtain ⟨m, k⟩ := s
  cases hr : m.rest with
  | nil =>
      refine .inr ?_
      simp only [fetch, hr]
      exact hw.rests_take (hx hr)
  | cons c rest =>
      have hn : m.exhausted = false := by
        cases he : m.exhausted with
        | false => rfl
        | true => exact absurd (hr.symm.trans (hw he).1) (List.cons_ne_nil c rest)
      refine .inl ?_
      simp only [fetch, hr]
      refine ⟨hn, spanOffset_ne_zero ?_⟩
      exact Nat.add_pos_right _ (Lexeme.byteLength_pos (Lexeme.text_startingWith_ne_nil c rest))

/-- A lexer that a fetch has left exhausted rests. -/
theorem rests_next {l : Lexer} (h : l.WellFormed) {j : Journal}
    (hx : (l.next j).1.exhausted = true) : (l.next j).1.Rests := by
  rcases next_cases h j with ⟨hn, -⟩ | hr
  · exact absurd (hn.symm.trans hx) nofun
  · exact hr

theorem WellFormed.next {l : Lexer} (h : l.WellFormed) (j : Journal) : (l.next j).1.WellFormed := by
  rcases next_cases h j with ⟨hx, -⟩ | hr
  · intro he
    exact absurd (hx.symm.trans he) nofun
  · exact hr.wellFormed

/-- At the end of its input a lexer stays as it is, and does not ask its reader again. -/
theorem next_of_rests {l : Lexer} (h : l.Rests) (j : Journal) :
    l.next j = (l, j.note (.fetched l.current)) := by
  have hs : l.skipBlanks = l := by
    rw [skipBlanks, h.rest]
    obtain ⟨i, line, rest, offset, n, x, current⟩ := l
    cases h.rest
    rfl
  have ht : l.take .terminator [] = l := by
    rw [take, ← h.current, h.rest]
    obtain ⟨i, line, rest, offset, n, x, current⟩ := l
    cases h.rest
    rfl
  simp only [next, seek_exhausted j h.exhausted, hs, fetch, h.rest, ht]

/-! ### What is to come -/

theorem coming_of_rests {l : Lexer} (h : l.Rests) : l.coming = [] := by
  have hn := next_of_rests h (.ofSink .silent)
  refine coming_nil (j := .ofSink .silent) ?_
  rw [hn]
  exact ⟨by rw [h.kind]; rfl, h.exhausted⟩

/-- The tokens to come are the next one and those to come behind it, or none are. -/
theorem coming_next {l : Lexer} (h : l.WellFormed) (j : Journal) :
    (l.next j).1.exhausted = false ∧ l.coming = (l.next j).1.current :: (l.next j).1.coming ∨
      (l.next j).1.Rests ∧ l.coming = [] := by
  rcases next_cases h j with ⟨hx, -⟩ | hr
  · refine .inl ⟨hx, coming_cons fun he => ?_⟩
    exact absurd (hx.symm.trans he.2) nofun
  · refine .inr ⟨hr, coming_nil (j := j) ⟨?_, hr.exhausted⟩⟩
    rw [hr.kind]
    rfl

/-- No token to come is the terminator of the exhausted lexer, which is without a byte. -/
theorem stop_coming {l : Lexer} (h : l.WellFormed) : ∀ token ∈ l.coming, token.span.stop ≠ 0 := by
  generalize hj : Journal.ofSink .silent = j
  rw [coming_eq l j]
  clear hj
  induction l, j using tokens.induct with
  | case1 l j l' j' hn hx =>
      rw [tokens_nil hn hx]
      exact fun token hm => absurd hm List.not_mem_nil
  | case2 l j l' j' hn hx tokens j'' ht ih =>
      have hc := next_cases h j
      have hw := h.next j
      rw [hn] at hc hw
      rw [tokens_cons hn hx]
      intro token hm
      rcases List.mem_cons.mp hm with rfl | hm
      · rcases hc with ⟨-, hs⟩ | hr
        · exact hs
        · exact absurd ⟨by rw [hr.kind]; rfl, hr.exhausted⟩ hx
      · exact ih hw token hm

end Lexer

end DeskCalculator
