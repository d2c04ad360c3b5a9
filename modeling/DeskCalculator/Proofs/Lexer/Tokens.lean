import DeskCalculator.Proofs.Lexer.Fetch

/-!
# Tokens — From the first token to the last

The tokens of a lexer are what one fetch after the other gives until the input is exhausted
(`tokens_nil`, `tokens_cons`).  The journal they leave has the reports of the bad ones among them, in
their order, and no others (`gains_tokens`).  No fetch looks at the journal, so what is to come
from a lexer is a matter of the lexer alone (`coming`).
-/

namespace DeskCalculator.Lexer

section
variable {l l' : Lexer} {j j' : Journal} (h : l.next j = (l', j'))
include h

theorem tokens_nil (hx : l'.current.kind.isTerminator ∧ l'.exhausted) : l.tokens j = ([], j') := by
  rw [tokens, h]
  exact dif_pos hx

theorem tokens_cons (hx : ¬(l'.current.kind.isTerminator ∧ l'.exhausted)) :
    l.tokens j = (l'.current :: (l'.tokens j').1, (l'.tokens j').2) := by
  rw [tokens, h]
  exact dif_neg hx

end

/-- A lexer that fetches alike has the same tokens. -/
theorem tokens_congr {l m : Lexer} {j k : Journal} (h : l.next j = m.next k) :
    l.tokens j = m.tokens k := by
  rw [tokens, tokens, h]

/-! ### What the tokens leave in the journal -/

theorem problems_of_isTerminator {k : Kind} (h : k.isTerminator = true) : k.problems = [] := by
  cases k <;> first | rfl | cases h

/-- Bad tokens are reported in their order, each once, and nothing else is. -/
theorem gains_tokens (l : Lexer) (j : Journal) :
    j.Gains ((l.tokens j).1.flatMap fun token => token.kind.problems) (l.tokens j).2 := by
  induction l, j using tokens.induct with
  | case1 l j l' j' hn hx =>
      have hg := gains_next l j
      rw [hn, problems_of_isTerminator hx.1] at hg
      rw [tokens_nil hn hx]
      exact hg
  | case2 l j l' j' hn hx tokens j'' ht ih =>
      have hg := gains_next l j
      rw [hn] at hg
      rw [tokens_cons hn hx, List.flatMap_cons]
      exact hg.trans ih

theorem problems_tokens (l : Lexer) (j : Journal) :
    (l.tokens j).2.problems =
      j.problems ++ (l.tokens j).1.flatMap fun token => token.kind.problems :=
  (gains_tokens l j).problems_eq

theorem errors_tokens (l : Lexer) (j : Journal) :
    (l.tokens j).2.errors =
      j.errors + ((l.tokens j).1.flatMap fun token => token.kind.problems).length :=
  (gains_tokens l j).errors_eq

/-! ### No fetch looks at the journal -/

theorem refill_fst (l : Lexer) (j k : Journal) : (l.refill j).1 = (l.refill k).1 := by
  simp only [refill]
  split <;> rfl

theorem seek_fst (l : Lexer) (j k : Journal) : (l.seek j).1 = (l.seek k).1 := by
  fun_induction seek l j generalizing k with
  | case1 l j h ih =>
      rw [seek_further k h, ← refill_fst l.skipBlanks j k]
      exact ih _
  | case2 l j h => rw [seek_here k h]

theorem next_fst (l : Lexer) (j k : Journal) : (l.next j).1 = (l.next k).1 := by
  have hs := seek_fst l j k
  simp only [next]
  generalize l.seek j = s at hs
  generalize l.seek k = t at hs
  simp only [fetch, hs]
  split <;> rfl

theorem tokens_fst (l : Lexer) (j k : Journal) : (l.tokens j).1 = (l.tokens k).1 := by
  induction l, j using tokens.induct generalizing k with
  | case1 l j l' j' hn hx =>
      have hk : l.next k = (l', (l.next k).2) := Prod.ext (by rw [next_fst l k j, hn]) rfl
      rw [tokens_nil hn hx, tokens_nil hk hx]
  | case2 l j l' j' hn hx tokens j'' ht ih =>
      have hk : l.next k = (l', (l.next k).2) := Prod.ext (by rw [next_fst l k j, hn]) rfl
      rw [tokens_cons hn hx, tokens_cons hk hx, ih]

/-- The tokens to come, without the terminators of the exhausted lexer. -/
def coming (l : Lexer) : List Token := (l.tokens (.ofSink .silent)).1

theorem coming_eq (l : Lexer) (j : Journal) : l.coming = (l.tokens j).1 := tokens_fst l _ j

theorem coming_nil {l : Lexer} {j : Journal}
    (hx : (l.next j).1.current.kind.isTerminator ∧ (l.next j).1.exhausted) : l.coming = [] := by
  rw [coming_eq l j, tokens_nil (Prod.eta _).symm hx]

theorem coming_cons {l : Lexer} {j : Journal}
    (hx : ¬((l.next j).1.current.kind.isTerminator ∧ (l.next j).1.exhausted)) :
    l.coming = (l.next j).1.current :: (l.next j).1.coming := by
  rw [coming_eq l j, tokens_cons (Prod.eta _).symm hx, coming_eq]

end DeskCalculator.Lexer
