import DeskCalculator.Proofs.Session.Ledger

/-!
# Sessions — Every session ends

Whatever the chunks of an input are, a session over it is a finite number of turns.  Each turn uses a
token that was to come, so there are no more turns than tokens (`Conducts.length_add_le`).  An
evaluation follows finitely many rules, and does not fetch beyond the next terminator or bad token
(`Consumes.length_fetched_le`); a fetch reads a limited number of lines (`Lexer.seeks_seek`).

**The end** (`calculate_terminates`).  All of this of every input, every table and every calculator.
-/

namespace DeskCalculator

/-! ### One fetch -/

/-- The lexer reads `n` lines, or finds the end with the last of these reads, before it stands at a
lexeme or at the end. -/
inductive Lexer.Seeks : Nat → Lexer → Journal → Lexer → Journal → Prop where
  | here {l : Lexer} {j : Journal}
      (h : ¬((l.rest.dropWhile isBlank).isEmpty ∧ l.exhausted = false)) :
      Seeks 0 l j l.skipBlanks j
  | further {n : Nat} {l l' : Lexer} {j j' : Journal}
      (h : (l.rest.dropWhile isBlank).isEmpty ∧ l.exhausted = false)
      (hs : Seeks n (l.skipBlanks.refill j).1 (l.skipBlanks.refill j).2 l' j') :
      Seeks (n + 1) l j l' j'

/-- A fetch reads no more often than there is something unread. -/
theorem Lexer.seeks_seek (l : Lexer) (j : Journal) :
    ∃ n ≤ l.unread, Seeks n l j (l.seek j).1 (l.seek j).2 := by
  fun_induction Lexer.seek l j with
  | case1 l j h ih =>
      obtain ⟨n, hn, hs⟩ := ih
      have hu : (l.skipBlanks.refill j).1.unread < l.unread := (unread_refill h.2 j).1
      exact ⟨n + 1, Nat.lt_of_le_of_lt hn hu, .further h hs⟩
  | case2 l j h => exact ⟨0, Nat.zero_le _, .here h⟩

namespace Calculator

/-! ### One evaluation -/

/-- An evaluation fetches as many tokens as it consumes, and it does not consume beyond its reach. -/
theorem Consumes.length_fetched_le {c c' : Calculator} {consumed fetched : List Token}
    (h : c.Consumes consumed c') (hf : c'.journal.tokens = c.journal.tokens ++ fetched) :
    fetched.length ≤
      ((c.current :: c.lexer.coming).takeWhile fun token => !token.kind.stops).length := by
  obtain ⟨fetched', hf', hc⟩ := h.tokens
  obtain rfl : fetched = fetched' := List.append_cancel_left (hf.symm.trans hf')
  have hl := congrArg List.length hc
  rw [List.length_cons, List.length_append, List.length_singleton] at hl
  rw [Nat.succ.inj hl]
  exact h.prefix_takeWhile.length_le

/-- **An evaluation fetches at most one token more than are within its reach.** -/
theorem length_fetched_evaluateFrom (c : Calculator) (lookahead : Lookahead) :
    ∃ fetched, (c.evaluateFrom lookahead).2.journal.tokens = c.journal.tokens ++ fetched ∧
      fetched.length ≤ c.reach.length + 1 := by
  rw [evaluateFrom_eq_evaluate]
  obtain ⟨consumed, hc⟩ := consumes_evaluate (c.start lookahead)
  obtain ⟨fetched, hf, -⟩ := hc.tokens
  have hl := hc.length_fetched_le hf
  cases lookahead with
  | fetch =>
      rw [start, takeWhile_advance] at hl
      refine ⟨c.advance.current :: fetched, ?_, Nat.succ_le_succ hl⟩
      rw [hf, start, tokens_advance, List.append_assoc]
      rfl
  | current =>
      refine ⟨fetched, hf, Nat.le_trans hl ?_⟩
      rw [start, List.takeWhile_cons]
      split
      · exact Nat.le_refl _
      · exact Nat.zero_le _

/-! ### One session -/

section
variable {total : List Token} {c d : Calculator}

/-- The more has been fetched, the less is to come. -/
theorem Live.length_coming_le (h : c.Live total) (hd : d.Live total ∨ d.Ended total)
    (hp : c.journal.tokens <+: d.journal.tokens) :
    d.lexer.coming.length ≤ c.lexer.coming.length := by
  rcases hd with hd | hd
  · have hl := congrArg List.length (h.tokens.trans hd.tokens.symm)
    rw [List.length_append, List.length_append] at hl
    have hle := hp.length_le
    omega
  · rw [Lexer.coming_of_rests hd.rests]
    exact Nat.zero_le _

/-- A turn takes at least one of the tokens to come. -/
theorem Turn.length_coming_lt {use : Use} (h : c.Turn use d) (hl : c.Live total) :
    d.lexer.coming.length < c.lexer.coming.length := by
  have ha := h.live_advance hl
  have hd : d.lexer.coming.length ≤ c.advance.lexer.coming.length := by
    refine ha.length_coming_le ((h.ledger hl).imp id And.left) ?_
    cases h with
    | evaluation _ _ hc _ =>
        obtain ⟨fetched, hf, -⟩ := hc.tokens
        rw [tokens_evaluated, hf]
        exact List.prefix_append _ _
    | empty => exact List.prefix_rfl
  rcases Lexer.coming_next hl.wellFormed c.journal with ⟨-, hc⟩ | ⟨hr, -⟩
  · rw [hc]
    exact Nat.lt_succ_of_le hd
  · exact absurd hr h.not_rests

theorem Conducts.length_add_le {uses : List Use} (h : c.Conducts uses d) (hl : c.Live total) :
    uses.length + d.lexer.coming.length ≤ c.lexer.coming.length := by
  induction h with
  | refl => exact Nat.le_of_eq (Nat.zero_add _)
  | @more c c' c'' use uses h t ih =>
      have hlt := h.length_coming_lt hl
      rw [List.length_cons]
      cases t with
      | refl =>
          rw [List.length_nil]
          omega
      | more h' =>
          have hle := ih (h'.live ((h.ledger hl).imp id And.left))
          omega

end

end Calculator

/-- **Every session ends.**  A session is a number of turns, at most as many as there are tokens, and a
statement that finds the input exhausted.  Every statement is a turn or the last one; every evaluation
follows the rules to its end, and fetches at most one token more than stand before the next terminator
or bad token; every fetch reads a limited number of lines. -/
theorem calculate_terminates (input : Input) (table : Table) (journal : Journal) (output : Sink) :
    let start := Calculator.ofInput input table journal
    (∃ uses c, start.Conducts uses c ∧ c.Ends ∧ uses.length ≤ start.lexer.coming.length ∧
      calculate start output =
        (c.advance.note (.finished (uses.filterMap Use.value?).length c.advance.errors),
          (uses.filterMap Use.value?).foldl (fun sink value => sink.println (Double.text value))
            output)) ∧
    (∀ c : Calculator, c.Ends ∨ ∃ use d, c.Turn use d) ∧
    (∀ (c : Calculator) (lookahead : Calculator.Lookahead),
      Calculator.Evaluates .expression (c.start lookahead) (c.evaluateFrom lookahead).1
        (c.evaluateFrom lookahead).2 ∧
      ∃ fetched, (c.evaluateFrom lookahead).2.journal.tokens = c.journal.tokens ++ fetched ∧
        fetched.length ≤ c.reach.length + 1) ∧
    ∀ (l : Lexer) (j : Journal), ∃ n ≤ l.unread, l.Seeks n j (l.seek j).1 (l.seek j).2 := by
  intro start
  refine ⟨?_, Calculator.statement_cases, fun c lookahead => ⟨?_, ?_⟩, Lexer.seeks_seek⟩
  · obtain ⟨uses, c, hc, he, hf⟩ := calculate_conducts start output
    have hl := hc.length_add_le (Calculator.live_ofInput input table journal)
    exact ⟨uses, c, hc, he, Nat.le_trans (Nat.le_add_right _ _) hl, hf⟩
  · rw [Calculator.evaluateFrom_eq_evaluate]
    exact Calculator.evaluates_evaluate _
  · exact c.length_fetched_evaluateFrom lookahead

end DeskCalculator
