import DeskCalculator.Proofs.Lexer.Text
import DeskCalculator.Proofs.Lexer.Tokens
import Mathlib.Logic.Function.Iterate

/-!
# Tokens — A lexer over another input

Of its input a lexer sees only the lines, and the lines are the same for all inputs that deliver the
same characters.  So a lexer may have its input exchanged for another one with the same text to come
(`SameText`): every fetch then gives the same token, with the same span, and the same journal, and
leaves the two inputs with the same text to come again (`next_onInput`).  The bytes an input delivers
in all stay in sight: they are those consumed so far and those still to come, so they are all
consumed when the lexer is exhausted (`SameText.consumed_eq`).
-/

namespace DeskCalculator.Lexer

/-- The lexer over another input. -/
def onInput (l : Lexer) (i : Input) : Lexer := { l with input := i }

/-- The input of the lexer and `i` have the same text to come, and none if the lexer is exhausted.
The input of the lexer will then have delivered `total` bytes. -/
def SameText (total : Nat) (l : Lexer) (i : Input) : Prop :=
  ∃ text other, l.input.reader.Spells text total ∧ i.reader.Spells text other ∧
    (l.exhausted = true → text = [])

theorem SameText.consumed_eq {total : Nat} {l : Lexer} {i : Input} (h : l.SameText total i)
    (hx : l.exhausted = true) : l.input.reader.consumed = total := by
  obtain ⟨text, -, hs, -, he⟩ := h
  cases he hx
  exact hs.consumed_eq

variable {total : Nat} {l : Lexer} {i : Input}

theorem refill_onInput (h : l.SameText total i) (j : Journal) :
    ∃ i', (l.onInput i).refill j = ((l.refill j).1.onInput i', (l.refill j).2) ∧
      (l.refill j).1.SameText total i' := by
  obtain ⟨text, other, hl, hi, he⟩ := h
  by_cases hn : text = []
  · subst hn
    obtain ⟨r, hf, hr⟩ := refill_of_spells_nil hl j
    obtain ⟨r', hf', hr'⟩ := refill_of_spells_nil (l := l.onInput i) hi j
    rw [hf, hf']
    exact ⟨⟨i.hold, r'⟩, rfl, [], other, hr, hr', fun _ => rfl⟩
  · obtain ⟨r, hf, hr⟩ := refill_of_spells hl hn j
    obtain ⟨r', hf', hr'⟩ := refill_of_spells (l := l.onInput i) hi hn j
    rw [hf, hf']
    exact ⟨⟨i.hold, r'⟩, rfl, _, other, hr, hr', fun hx => absurd (he hx) hn⟩

theorem seek_onInput (h : l.SameText total i) (j : Journal) :
    ∃ i', (l.onInput i).seek j = ((l.seek j).1.onInput i', (l.seek j).2) ∧
      (l.seek j).1.SameText total i' := by
  fun_induction seek l j generalizing i with
  | case1 l j hc ih =>
      obtain ⟨i', hf, hs⟩ := refill_onInput (l := l.skipBlanks) h j
      obtain ⟨i'', hk, hs'⟩ := ih hs
      have hn := seek_further (l := l.onInput i) j hc
      exact ⟨i'', (hn.trans (congrArg (fun s => s.1.seek s.2) hf)).trans hk, hs'⟩
  | case2 l j hc => exact ⟨i, seek_here (l := l.onInput i) j hc, h⟩

theorem fetch_onInput (l : Lexer) (i : Input) (j : Journal) :
    (l.onInput i).fetch j = ((l.fetch j).1.onInput i, (l.fetch j).2) := by
  have hr : (l.onInput i).rest = l.rest := rfl
  simp only [fetch, hr]
  split <;> rfl

/-- A fetch does not tell one input from the other. -/
theorem next_onInput (h : l.SameText total i) (j : Journal) :
    ∃ i', (l.onInput i).next j = ((l.next j).1.onInput i', (l.next j).2) ∧
      (l.next j).1.SameText total i' := by
  obtain ⟨i', hs, ht⟩ := seek_onInput h j
  obtain ⟨kind, text, hf⟩ := fetch_eq_take (l.seek j).1 (l.seek j).2
  have hn : (l.next j).1 = (l.seek j).1.take kind text := congrArg Prod.fst hf
  refine ⟨i', ?_, hn ▸ ht⟩
  simp only [next, hs, fetch_onInput]
  rfl

/-- The tokens of a text, whatever input delivers it. -/
theorem tokens_onInput (h : l.SameText total i) (j : Journal) :
    (l.onInput i).tokens j = l.tokens j := by
  induction l, j using tokens.induct generalizing i with
  | case1 l j l' j' hn hx =>
      obtain ⟨i', hi, -⟩ := next_onInput h j
      rw [hn] at hi
      exact (tokens_nil hi hx).trans (tokens_nil hn hx).symm
  | case2 l j l' j' hn hx tokens j'' ht ih =>
      obtain ⟨i', hi, hs⟩ := next_onInput h j
      rw [hn] at hi hs
      rw [tokens_cons hi hx, tokens_cons hn hx, ih hs]
      rfl

/-! ### A new input -/

theorem refill_withCurrent (l : Lexer) (t : Token) (j : Journal) :
    ({ l with current := t } : Lexer).refill j =
      ({ (l.refill j).1 with current := t }, (l.refill j).2) := by
  simp only [refill]
  split <;> rfl

theorem seek_withCurrent (l : Lexer) (t : Token) (j : Journal) :
    ({ l with current := t } : Lexer).seek j = ({ (l.seek j).1 with current := t }, (l.seek j).2) := by
  fun_induction seek l j with
  | case1 l j h ih =>
      have hr := refill_withCurrent l.skipBlanks t j
      have hs := seek_further (l := { l with current := t }) j h
      exact (hs.trans (congrArg (fun s => s.1.seek s.2) hr)).trans ih
  | case2 l j h => exact seek_here (l := { l with current := t }) j h

/-- The token that is current has no influence on the next one. -/
theorem next_withCurrent (l : Lexer) (t : Token) (j : Journal) :
    ({ l with current := t } : Lexer).next j = l.next j := by
  have hf : ∀ (l : Lexer) (j : Journal), ({ l with current := t } : Lexer).fetch j = l.fetch j := by
    intro l j
    simp only [fetch]
    split <;> rfl
  simp only [next, seek_withCurrent, hf]

/-- From a new input a lexer gets the tokens of what the input holds, and nothing of its old line. -/
theorem tokens_setInput (l : Lexer) {i : Input} {bytes : List UInt8} (h : i.reader.Holds bytes)
    (j : Journal) :
    ((l.setInput i).tokens j).1 = (tokenize (String.ofList (Utf8.decode bytes))).1 := by
  have hs : (ofInput i).SameText (i.reader.consumed + bytes.length)
      (.ofString (String.ofList (Utf8.decode bytes))) := by
    have ht := Reader.spells_ofString (String.ofList (Utf8.decode bytes))
    rw [String.toList_ofList] at ht
    exact ⟨_, _, ⟨bytes, h, rfl, rfl⟩, ht, nofun⟩
  have hn : (l.setInput i).next j = (ofInput i).next j := next_withCurrent (ofInput i) l.current j
  calc ((l.setInput i).tokens j).1
      = ((ofInput i).tokens j).1 := congrArg Prod.fst (tokens_congr hn)
    _ = ((ofInput i).tokens (.ofSink (.buffer ""))).1 := tokens_fst _ _ _
    _ = _ := congrArg Prod.fst (tokens_onInput hs _).symm

/-! ### Fetching on and on -/

/-- A fetch, as a step of a lexer with its journal. -/
def step (s : Lexer × Journal) : Lexer × Journal := s.1.next s.2

theorem sameText_iterate (h : l.SameText total i) (j : Journal) (n : Nat) :
    ∃ i', (step^[n] (l, j)).1.SameText total i' := by
  induction n with
  | zero => exact ⟨i, h⟩
  | succ n ih =>
      obtain ⟨i', hs⟩ := ih
      obtain ⟨i'', -, hs'⟩ := next_onInput hs (step^[n] (l, j)).2
      rw [Function.iterate_succ_apply']
      exact ⟨i'', hs'⟩

/-- The tokens are those of a run of fetches, and the fetch after the last of them finds the input
exhausted. -/
theorem tokens_iterate (l : Lexer) (j : Journal) :
    (step^[(l.tokens j).1.length + 1] (l, j)).1.exhausted = true ∧
      (step^[(l.tokens j).1.length + 1] (l, j)).2 = (l.tokens j).2 := by
  induction l, j using tokens.induct with
  | case1 l j l' j' hn hx =>
      rw [tokens_nil hn hx, List.length_nil, Nat.zero_add, Function.iterate_one, step, hn]
      exact ⟨hx.2, rfl⟩
  | case2 l j l' j' hn hx tokens j'' ht ih =>
      rw [tokens_cons hn hx, List.length_cons, Function.iterate_succ_apply, step, hn]
      exact ih

end DeskCalculator.Lexer
